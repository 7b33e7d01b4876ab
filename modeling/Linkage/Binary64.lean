/-!
# Linkage.Binary64

IEEE 754 double precision on its 64 bits. A finite number is a sign, a mantissa and a power of
two; every operation computes the exact result on these and rounds it once, to nearest with ties
to even. The bits of a NaN are kept as they are until it takes part in an operation.

* `Shape` and `shape` — what the bits stand for.
* `ofRatio` — the rounding of a quotient of naturals, on which all arithmetic rests.
-/

namespace Linkage

structure Binary64 where
  bits : UInt64
  deriving DecidableEq, Inhabited

namespace Binary64

/-- What a bit pattern stands for; `finite s m e` is `± m * 2 ^ e`. -/
inductive Shape where
  | nan
  | infinite (negative : Bool)
  | finite (negative : Bool) (mantissa : Nat) (exponent : Int)

/-- The leading bit of a normal mantissa, which is not stored: 2 ^ 52. -/
def hiddenBit : Nat := 0x10000000000000

def negative (x : Binary64) : Bool := 0x8000000000000000 ≤ x.bits

def shape (x : Binary64) : Shape :=
  let biased := (x.bits.toNat >>> 52) % 2048
  let fraction := x.bits.toNat % hiddenBit
  if biased = 2047 then
    if fraction = 0 then .infinite x.negative else .nan
  else if biased = 0 then
    .finite x.negative fraction (-1074)
  else
    .finite x.negative (hiddenBit + fraction) ((biased : Int) - 1075)

def nan : Binary64 := ⟨0x7ff8000000000000⟩

def signBit (negative : Bool) : Nat := if negative then 0x8000000000000000 else 0

def infinity (negative : Bool) : Binary64 :=
  ⟨UInt64.ofNat (signBit negative + 0x7ff0000000000000)⟩

def zero (negative : Bool) : Binary64 := ⟨UInt64.ofNat (signBit negative)⟩

def isNaN (x : Binary64) : Bool :=
  match x.shape with
  | .nan => true
  | _ => false

/-- Either of the two zeros. -/
def isZero (x : Binary64) : Bool := x.bits == 0 || x.bits == 0x8000000000000000

/-! ## Rounding -/

/-- The quotient rounded to the nearest natural, a half to the even one. -/
def roundDiv (num den : Nat) : Nat :=
  let q := num / den
  let r := num % den
  if 2 * r < den || (2 * r == den && q % 2 == 0) then q else q + 1

/-- `num / (den * 2 ^ e)` as a quotient of naturals. -/
def scaled (num den : Nat) (e : Int) : Nat × Nat :=
  if 0 ≤ e then (num, den <<< e.toNat) else (num <<< (-e).toNat, den)

/--
The power of two of the last bit kept when `num / den` is rounded: the one that leaves 53 bits,
but never below that of the subnormal numbers.
-/
def lastBit (num den : Nat) : Int :=
  let low : Int := (num.log2 : Int) - den.log2 - 53
  let (n, d) := scaled num den low
  max (if 2 * hiddenBit ≤ n / d then low + 1 else low) (-1074)

/--
The double nearest to `± num / den`. With `e` the power of the last bit and `m` the mantissa,
`(e + 1074) * hiddenBit + m` is the bit pattern: for a normal number the leading bit of `m` adds the
missing one to the exponent field, for a subnormal one the field stays zero, and a mantissa that
rounds up to twice the hidden bit carries into the next exponent.
-/
def ofRatio (negative : Bool) (num den : Nat) : Binary64 :=
  if num = 0 then zero negative
  else
    let e := lastBit num den
    let (n, d) := scaled num den e
    let magnitude := (e + 1074).toNat * hiddenBit + roundDiv n d
    if 0x7ff0000000000000 ≤ magnitude then infinity negative
    else ⟨UInt64.ofNat (signBit negative + magnitude)⟩

/-- The double nearest to `± m * 2 ^ e`. -/
def ofScaled (negative : Bool) (m : Nat) (e : Int) : Binary64 :=
  if 0 ≤ e then ofRatio negative (m <<< e.toNat) 1
  else ofRatio negative m (1 <<< (-e).toNat)

def ofInt (i : Int) : Binary64 := ofRatio (i < 0) i.natAbs 1

/-! ## Arithmetic -/

def neg (x : Binary64) : Binary64 := ⟨x.bits ^^^ 0x8000000000000000⟩

/-- A mantissa with its sign, moved to the power of two `e` that is not above its own. -/
def aligned (negative : Bool) (m : Nat) (own e : Int) : Int :=
  let magnitude : Int := (m <<< (own - e).toNat : Nat)
  if negative then -magnitude else magnitude

/-- An exact sum of zero is negative only when both terms are. -/
def add (x y : Binary64) : Binary64 :=
  match x.shape, y.shape with
  | .nan, _ => nan
  | _, .nan => nan
  | .infinite s, .infinite t => if s = t then infinity s else nan
  | .infinite s, _ => infinity s
  | _, .infinite t => infinity t
  | .finite s m e, .finite t n f =>
    let low := min e f
    let sum := aligned s m e low + aligned t n f low
    if sum = 0 then zero (s && t) else ofScaled (sum < 0) sum.natAbs low

def sub (x y : Binary64) : Binary64 :=
  if y.isNaN then nan else x.add y.neg

def mul (x y : Binary64) : Binary64 :=
  match x.shape, y.shape with
  | .nan, _ => nan
  | _, .nan => nan
  | .infinite s, .infinite t => infinity (s ^^ t)
  | .infinite s, .finite t n _ => if n = 0 then nan else infinity (s ^^ t)
  | .finite s m _, .infinite t => if m = 0 then nan else infinity (s ^^ t)
  | .finite s m e, .finite t n f => ofScaled (s ^^ t) (m * n) (e + f)

def div (x y : Binary64) : Binary64 :=
  match x.shape, y.shape with
  | .nan, _ => nan
  | _, .nan => nan
  | .infinite _, .infinite _ => nan
  | .infinite s, .finite t _ _ => infinity (s ^^ t)
  | .finite s _ _, .infinite t => zero (s ^^ t)
  | .finite s m e, .finite t n f =>
    if n = 0 then if m = 0 then nan else infinity (s ^^ t)
    else if f ≤ e then ofRatio (s ^^ t) (m <<< (e - f).toNat) n
    else ofRatio (s ^^ t) m (n <<< (f - e).toNat)

/-- The remainder of the division truncated toward zero; it has the sign of the dividend. -/
def rem (x y : Binary64) : Binary64 :=
  match x.shape, y.shape with
  | .nan, _ => nan
  | _, .nan => nan
  | .infinite _, _ => nan
  | .finite s m e, .infinite _ => ofScaled s m e
  | .finite s m e, .finite _ n f =>
    if n = 0 then nan
    else
      let low := min e f
      ofScaled s ((m <<< (e - low).toNat) % (n <<< (f - low).toNat)) low

end Binary64

end Linkage
