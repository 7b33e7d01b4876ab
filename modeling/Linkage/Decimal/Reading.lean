import Linkage.Binary64

/-!
# Linkage.Decimal.Reading

Decimal numerals and their values: naturals from runs of digits, and doubles from numerals with a
fraction or an exponent, rounded once from the exact value.

* `toNat_eq_natFrom` — a run of digits that is read by halves has the value it has when it is read
  digit by digit.
-/

namespace Linkage
namespace Decimal

/-! ## Naturals -/

/-- The natural a run of decimal digits stands for, continuing from `acc`. -/
def natFrom (acc : Nat) (digits : List Char) : Nat :=
  digits.foldl (fun n c => 10 * n + (c.toNat - '0'.toNat)) acc

/--
The natural a run of digits stands for, from the naturals of its two halves, down to this many
levels of halves. A long run is read sooner in this way than digit by digit.
-/
def natByHalves : Nat → List Char → Nat
  | 0, digits => natFrom 0 digits
  | levels + 1, digits =>
    let high := digits.take (digits.length / 2)
    let low := digits.drop (digits.length / 2)
    natByHalves levels high * Nat.pow 10 low.length + natByHalves levels low

/-- The natural a run of digits stands for. Runs shorter than 64 are read digit by digit. -/
def toNat (digits : List Char) : Nat := natByHalves (digits.length.log2 - 5) digits

theorem natFrom_eq (acc : Nat) (digits : List Char) :
    natFrom acc digits = acc * Nat.pow 10 digits.length + natFrom 0 digits := by
  induction digits generalizing acc with
  | nil => exact (Nat.mul_one acc).symm
  | cons c cs ih =>
    change natFrom (10 * acc + (c.toNat - '0'.toNat)) cs
      = acc * (Nat.pow 10 cs.length * 10) + natFrom (10 * 0 + (c.toNat - '0'.toNat)) cs
    rw [ih (10 * acc + _), ih (10 * 0 + _), Nat.add_mul, Nat.mul_zero, Nat.zero_add,
      ← Nat.add_assoc, Nat.mul_comm 10 acc, Nat.mul_assoc, Nat.mul_comm 10]

theorem natFrom_append (acc : Nat) (ds es : List Char) :
    natFrom acc (ds ++ es) = natFrom (natFrom acc ds) es := List.foldl_append

theorem natByHalves_eq_natFrom (levels : Nat) (digits : List Char) :
    natByHalves levels digits = natFrom 0 digits := by
  induction levels generalizing digits with
  | zero => rfl
  | succ n ih =>
    simp only [natByHalves, ih]
    rw [← natFrom_eq, ← natFrom_append, List.take_append_drop]

theorem toNat_eq_natFrom (digits : List Char) : toNat digits = natFrom 0 digits :=
  natByHalves_eq_natFrom _ digits

/-! ## Doubles -/

/--
The double nearest to the natural of the digits times `10 ^ e`. A number with its leading digit
above the 400th place is out of range and one with its leading digit below the 400th place after
the point is zero, so powers of ten that could only confirm this are not computed.
-/
def toBinary64 (digits : List Char) (e : Int) : Binary64 :=
  let significant := digits.dropWhile (· = '0')
  let lead := significant.length + e
  if significant.isEmpty then .zero false
  else if 400 < lead then .infinity false
  else if lead < -400 then .zero false
  else if 0 ≤ e then .ofRatio false (toNat significant * Nat.pow 10 e.toNat) 1
  else .ofRatio false (toNat significant) (Nat.pow 10 (-e).toNat)

/--
The size of an exponent. Digits count as long as those before them stand for less than 65536; the
ones after that are passed over.
-/
def exponentSize (digits : List Char) : Nat :=
  digits.foldl (fun n c => if n < 65536 then natFrom n [c] else n) 0

/-- The exponent after its `e`: digits with at most one sign before them. -/
def exponent (cs : List Char) : Int :=
  match cs with
  | '-' :: ds => -(exponentSize ds : Int)
  | '+' :: ds => exponentSize ds
  | ds => exponentSize ds

/-- The value of a numeral `digits [. digits] [e [sign] digits]`. -/
def readBinary64 (cs : List Char) : Binary64 :=
  let whole := cs.takeWhile Char.isDigit
  let rest := cs.dropWhile Char.isDigit
  let fraction := match rest with
    | '.' :: r => r.takeWhile Char.isDigit
    | _ => []
  let tail := match rest with
    | '.' :: r => r.dropWhile Char.isDigit
    | r => r
  let power := match tail with
    | _ :: r => exponent r
    | [] => 0
  toBinary64 (whole ++ fraction) (power - fraction.length)

end Decimal
end Linkage
