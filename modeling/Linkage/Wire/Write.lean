import Linkage.Hash.Xxh64
import Linkage.Text.Utf8

/-!
# Linkage.Wire.Write

The building blocks of the binary formats: little-endian words, texts and lists with their length
in front, and the envelope of magic, version and checksum around a body.

* `littleEndian_length` — a word has as many bytes as it is wide.
* `natOfBytes_littleEndian` — the bytes of a number give it back modulo the width.
-/

namespace Linkage

abbrev Bytes := List UInt8

namespace Wire

/-- The lowest `width` bytes of a number, lowest first. -/
def littleEndian : Nat → Nat → Bytes
  | 0, _ => []
  | width + 1, n => UInt8.ofNat n :: littleEndian width (n / 256)

def natOfBytes : Bytes → Nat
  | [] => 0
  | b :: bs => b.toNat + 256 * natOfBytes bs

def u16 (w : UInt16) : Bytes := littleEndian 2 w.toNat
def u32 (w : UInt32) : Bytes := littleEndian 4 w.toNat
def u64 (w : UInt64) : Bytes := littleEndian 8 w.toNat

def flag (b : Bool) : Bytes := [if b then 1 else 0]

/-- A length, modulo the 32 bits there are for it. -/
def count (n : Nat) : Bytes := littleEndian 4 n

def str (s : String) : Bytes :=
  let bs := Text.bytes s
  count bs.length ++ bs

/-- The items in order, with their number in front. -/
def list {α : Type} (item : α → Bytes) (xs : List α) : Bytes :=
  count xs.length ++ xs.flatMap item

/-- The four bytes a format starts with, and its version. -/
structure Format where
  magic : Bytes
  version : UInt16

/-- The body in its envelope: magic and version before it, the hash of all that after it. -/
def Format.envelope (f : Format) (body : Bytes) : Bytes :=
  let content := f.magic ++ u16 f.version ++ body
  content ++ u64 (xxh64 content)

theorem littleEndian_length (width n : Nat) : (littleEndian width n).length = width := by
  induction width generalizing n with
  | zero => rfl
  | succ width ih => simp [littleEndian, ih]

theorem natOfBytes_littleEndian (width n : Nat) :
    natOfBytes (littleEndian width n) = n % Nat.pow 256 width := by
  induction width generalizing n with
  | zero => exact (Nat.mod_one n).symm
  | succ width ih =>
    have h : Nat.pow 256 (width + 1) = 256 * Nat.pow 256 width := Nat.mul_comm _ _
    rw [h, Nat.mod_mul]
    simp only [littleEndian, natOfBytes, UInt8.toNat_ofNat', ih]

end Wire
end Linkage
