import Linkage.Binary64

/-!
# Linkage.Decimal.Shortest

The shortest decimal that reads back as a given double. The reals that round to the double form
an interval around it; the coarsest decimal grid with a point in that interval gives the fewest
digits, and of its points there the one nearest to the double is written.
-/

namespace Linkage
namespace Decimal

/--
A positive real `value / unit` and the interval of reals that round to it, in quarters of the
distance to the next double above: `low / unit` to `high / unit`, its ends included when `closed`.
-/
structure Neighbourhood where
  low : Nat
  value : Nat
  high : Nat
  unit : Nat
  closed : Bool

/--
The neighbourhood of `m * 2 ^ e`. The double below is half as far away when `m` is a power of two
other than the least normal one; the ends round to an even mantissa.
-/
def neighbourhood (m : Nat) (e : Int) : Neighbourhood :=
  let below := if m = Binary64.hiddenBit && e > -1074 then 1 else 2
  let up := e.toNat
  ⟨(4 * m - below) <<< up, (4 * m) <<< up, (4 * m + 2) <<< up, 4 <<< (-e).toNat, m % 2 == 0⟩

/-- Whether the grid point `c * 10 ^ k`, given as `num / den`, lies in the neighbourhood. -/
def Neighbourhood.holds (v : Neighbourhood) (num den : Nat) : Bool :=
  let x := num * v.unit
  if v.closed then v.low * den ≤ x && x ≤ v.high * den
  else v.low * den < x && x < v.high * den

/--
The point nearest to the value among those of the grid `10 ^ k` in the neighbourhood, as a
multiple of `10 ^ k`; of two equally near ones the upper.
-/
def Neighbourhood.onGrid (v : Neighbourhood) (k : Int) : Option Nat :=
  let num := Nat.pow 10 k.toNat
  let den := Nat.pow 10 (-k).toNat
  let c := v.value * den / (num * v.unit)
  let down := v.holds (c * num) den
  let up := v.holds ((c + 1) * num) den
  let upNearer := 2 * v.value * den ≥ (2 * c + 1) * num * v.unit
  if up && (upNearer || !down) then some (c + 1)
  else if down then some c
  else none

/-- The first hit on the grids `10 ^ k`, `10 ^ (k - 1)`, …, with the power of its grid. -/
def Neighbourhood.search (v : Neighbourhood) : Nat → Int → Nat × Int
  | 0, k => (0, k)
  | grids + 1, k =>
    match v.onGrid k with
    | some c => (c, k)
    | none => v.search grids (k - 1)

/-- `(c, k)` with `c * 10 ^ k` the shortest decimal for `m * 2 ^ e`. -/
def shortest (m : Nat) (e : Int) : Nat × Int :=
  (neighbourhood m e).search 660 310

/-- The layout of a positive decimal `c * 10 ^ k`, with a point in it or an exponent after it. -/
structure Layout where
  /-- Powers of ten of the leading digit from `least` to `most` are written without exponent. -/
  least : Int
  most : Int

/-- The digits with the point after the first `n` of them, zeros filling up either side. -/
def positional (ds : List Char) (n : Int) : List Char :=
  let lead := if n ≤ 0 then ['0'] else
    ds.take n.toNat ++ List.replicate (n.toNat - ds.length) '0'
  let fraction := List.replicate (-n).toNat '0' ++ ds.drop n.toNat
  lead ++ '.' :: (if fraction.isEmpty then ['0'] else fraction)

/-- The first digit, the others after a point if there are any, and the exponent. -/
def scientific (ds : List Char) (power : Int) : List Char :=
  let fraction := match ds with
    | d :: r@(_ :: _) => d :: '.' :: r
    | ds => ds
  fraction ++ 'e' :: (toString power).toList

def Layout.write (f : Layout) (c : Nat) (k : Int) : List Char :=
  let all := Nat.toDigits 10 c
  let ds := (all.reverse.dropWhile (· = '0')).reverse
  let power : Int := all.length + k - 1
  if f.least ≤ power && power ≤ f.most then positional ds (power + 1)
  else scientific ds power

end Decimal
end Linkage
