/-!
# Linkage.Hash.Xxh64

The 64-bit xxHash of a byte string with seed zero. Stripes of 32 bytes run through four lanes,
the rest goes through a tail of 8, 4 and single bytes, and a final avalanche mixes the word.
-/

namespace Linkage
namespace Xxh64

def prime1 : UInt64 := 0x9e3779b185ebca87
def prime2 : UInt64 := 0xc2b2ae3d27d4eb4f
def prime3 : UInt64 := 0x165667b19e3779f9
def prime4 : UInt64 := 0x85ebca77c2b2ae63
def prime5 : UInt64 := 0x27d4eb2f165667c5

def rotl (w : UInt64) (n : UInt64) : UInt64 := (w <<< n) ||| (w >>> (64 - n))

/-- The bytes as one word, the first byte lowest. -/
def word (bs : List UInt8) : UInt64 :=
  bs.foldr (fun b w => (w <<< 8) ||| b.toUInt64) 0

def round (acc lane : UInt64) : UInt64 :=
  rotl (acc + lane * prime2) 31 * prime1

structure Lanes where
  a : UInt64
  b : UInt64
  c : UInt64
  d : UInt64

def Lanes.start : Lanes := ⟨prime1 + prime2, prime2, 0, 0 - prime1⟩

def Lanes.stripe (l : Lanes) (bs : List UInt8) : Lanes :=
  ⟨round l.a (word (bs.take 8)), round l.b (word ((bs.drop 8).take 8)),
   round l.c (word ((bs.drop 16).take 8)), round l.d (word ((bs.drop 24).take 8))⟩

def merge (acc lane : UInt64) : UInt64 :=
  (acc ^^^ round 0 lane) * prime1 + prime4

def Lanes.combine (l : Lanes) : UInt64 :=
  let sum := rotl l.a 1 + rotl l.b 7 + rotl l.c 12 + rotl l.d 18
  merge (merge (merge (merge sum l.a) l.b) l.c) l.d

/-- The first `n` stripes of 32 bytes. -/
def stripes : Nat → Lanes → List UInt8 → Lanes
  | 0, l, _ => l
  | n + 1, l, bs => stripes n (l.stripe bs) (bs.drop 32)

/-- `n` words of eight bytes. -/
def tailWords : Nat → UInt64 → List UInt8 → UInt64
  | 0, h, _ => h
  | n + 1, h, bs =>
    tailWords n (rotl (h ^^^ round 0 (word (bs.take 8))) 27 * prime1 + prime4) (bs.drop 8)

/-- A word of four bytes if there is one, then the single bytes. -/
def tailBytes (h : UInt64) (bs : List UInt8) : UInt64 :=
  let half := 4 ≤ bs.length
  let h := if half then rotl (h ^^^ word (bs.take 4) * prime1) 23 * prime2 + prime3 else h
  (if half then bs.drop 4 else bs).foldl (fun h b => rotl (h ^^^ b.toUInt64 * prime5) 11 * prime1) h

def avalanche (h : UInt64) : UInt64 :=
  let h := (h ^^^ (h >>> 33)) * prime2
  let h := (h ^^^ (h >>> 29)) * prime3
  h ^^^ (h >>> 32)

end Xxh64

open Xxh64 in
def xxh64 (bs : List UInt8) : UInt64 :=
  let striped := bs.length / 32
  let start := if striped = 0 then prime5 else (stripes striped Lanes.start bs).combine
  let tail := bs.drop (32 * striped)
  let words := tail.length / 8
  avalanche (tailBytes (tailWords words (start + UInt64.ofNat bs.length) tail) (tail.drop (8 * words)))

end Linkage
