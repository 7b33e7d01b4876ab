import Linkage.Text.Quoted
import Linkage.Wire.Write

/-!
# Linkage.Wire.Read

Readers of the binary formats. A reader takes bytes from the front of an input, which knows how
many bytes came before, and gives a value and the input after it, or the first fault it meets.
-/

namespace Linkage

inductive FormatError where
  | badMagic (expected : Bytes)
  | unsupportedVersion (version : UInt16)
  | truncated (offset : Nat)
  | invalidUtf8 (offset : Nat)
  | invalidTag (what : String) (tag : UInt8) (offset : Nat)
  | checksumMismatch (stored computed : UInt64)
  | tooManyLevels (limit offset : Nat)
  | trailingBytes (count : Nat)
  deriving DecidableEq

namespace FormatError

def message : FormatError → String
  | .badMagic expected =>
    "bad magic: expected [" ++ String.intercalate ", " (expected.map (toString ·.toNat)) ++ "]"
  | .unsupportedVersion v => "unsupported format version " ++ toString v.toNat
  | .truncated offset => "truncated image at byte " ++ toString offset
  | .invalidUtf8 offset => "invalid utf-8 string at byte " ++ toString offset
  | .invalidTag what tag offset =>
    "invalid " ++ what ++ " tag " ++ toString tag.toNat ++ " at byte " ++ toString offset
  | .checksumMismatch stored computed =>
    "checksum mismatch (stored 0x" ++ Text.hex16 stored ++ ", computed 0x" ++
      Text.hex16 computed ++ ")"
  | .tooManyLevels limit offset =>
    "constant expression deeper than " ++ toString limit ++ " levels at byte " ++ toString offset
  | .trailingBytes n => toString n ++ " trailing bytes after image"

end FormatError

namespace Wire

/-- What is still to be read, and the number of bytes before it. -/
structure Input where
  rest : Bytes
  offset : Nat

def Reader (α : Type) : Type := Input → Except FormatError (α × Input)

namespace Reader

variable {α β : Type}

protected def pure (a : α) : Reader α := fun i => .ok (a, i)

protected def bind (r : Reader α) (f : α → Reader β) : Reader β := fun i =>
  match r i with
  | .error e => .error e
  | .ok (a, j) => f a j

instance : Monad Reader where
  pure := Reader.pure
  bind := Reader.bind

def fail (fault : Nat → FormatError) : Reader α := fun i => .error (fault i.offset)

/-- The next `n` bytes. -/
def take (n : Nat) : Reader Bytes := fun i =>
  let bs := i.rest.take n
  if bs.length = n then .ok (bs, ⟨i.rest.drop n, i.offset + n⟩)
  else .error (.truncated i.offset)

def byte : Reader UInt8 := fun i =>
  match i.rest with
  | b :: rest => .ok (b, ⟨rest, i.offset + 1⟩)
  | [] => .error (.truncated i.offset)

/-- A little-endian number of this many bytes. -/
def nat (width : Nat) : Reader Nat := do
  let bs ← take width
  return natOfBytes bs

def u32 : Reader UInt32 := do
  let n ← nat 4
  return UInt32.ofNat n

def u64 : Reader UInt64 := do
  let n ← nat 8
  return UInt64.ofNat n

/-- Every byte but zero is true. -/
def flag : Reader Bool := do
  let b ← byte
  return b != 0

/-- The bytes are only looked at as text once all of them are there. -/
def string : Reader String := do
  let n ← nat 4
  fun i =>
    match take n i with
    | .error e => .error e
    | .ok (bs, j) =>
      match Text.ofBytes? bs with
      | some s => .ok (s, j)
      | none => .error (.invalidUtf8 i.offset)

/-- A byte that stands for one of a few things. -/
def tag (what : String) (meaning : UInt8 → Option α) : Reader α := fun i =>
  match byte i with
  | .error e => .error e
  | .ok (b, j) =>
    match meaning b with
    | some a => .ok (a, j)
    | none => .error (.invalidTag what b i.offset)

def times (item : Reader α) : Nat → Reader (List α)
  | 0 => return []
  | n + 1 => do
    let a ← item
    let as ← times item n
    return a :: as

/-- Items with their number in front. -/
def list (item : Reader α) : Reader (List α) := do
  let n ← nat 4
  times item n

end Reader

/--
Reads a body in its envelope. The magic is looked at first, then the least length an envelope
has, the checksum, the version, the body and the end.
-/
def Format.unwrap {α : Type} (f : Format) (body : Reader α) (bs : Bytes) : Except FormatError α :=
  if bs.take f.magic.length ≠ f.magic then .error (.badMagic f.magic)
  else if bs.length < f.magic.length + 10 then .error (.truncated bs.length)
  else
    let content := bs.take (bs.length - 8)
    let stored := UInt64.ofNat (natOfBytes (bs.drop (bs.length - 8)))
    let computed := xxh64 content
    if stored ≠ computed then .error (.checksumMismatch stored computed)
    else
      let version := UInt16.ofNat (natOfBytes ((content.drop f.magic.length).take 2))
      if version ≠ f.version then .error (.unsupportedVersion version)
      else
        match body ⟨content.drop (f.magic.length + 2), f.magic.length + 2⟩ with
        | .error e => .error e
        | .ok (a, i) =>
          match i.rest.length with
          | 0 => .ok a
          | n => .error (.trailingBytes n)

end Wire
end Linkage
