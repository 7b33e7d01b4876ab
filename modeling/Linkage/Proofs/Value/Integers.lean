import Linkage.Value.Arithmetic
import Mathlib.Logic.ExistsUnique

/-!
# Linkage.Proofs.Value.Integers

Arithmetic on 64-bit integers is that on all integers, as far as 64 bits go.

* `Truncated a b q r` — `q` is the quotient of `a` by `b` truncated toward zero, and `r` is what is
  left over from it.
* `Operator.Gives op a b c` — what an operator gives on integers of any size.
* `fitsInt64_mustFit` — what an operator checks is whether its result fits; only for the remainder
  of the least integer by -1 it is not, because the quotient does not fit there.
* `integers_exact` — when there is a result, and which error there is if not.
-/

namespace Linkage

/-! ## Integers of 64 bits -/

def FitsInt64 (i : Int) : Prop := -9223372036854775808 ≤ i ∧ i ≤ 9223372036854775807

instance (i : Int) : Decidable (FitsInt64 i) := inferInstanceAs (Decidable (_ ∧ _))

theorem fitsInt64_toInt (a : Int64) : FitsInt64 a.toInt :=
  ⟨a.le_toInt, Int.le_of_lt_add_one a.toInt_lt⟩

theorem toInt_ofInt_of_fits {i : Int} (h : FitsInt64 i) : (Int64.ofInt i).toInt = i :=
  Int64.toInt_ofInt_of_le h.1 (Int.lt_add_one_of_le h.2)

theorem fitInt64?_of_fits {i : Int} (h : FitsInt64 i) : fitInt64? i = some (.ofInt i) := by
  rw [fitInt64?, Int64.toInt_minValue, Int64.toInt_maxValue]
  exact if_pos h

theorem fitInt64?_of_not_fits {i : Int} (h : ¬ FitsInt64 i) : fitInt64? i = none := by
  rw [fitInt64?, Int64.toInt_minValue, Int64.toInt_maxValue]
  exact if_neg h

/-! ## Division -/

/-- The remainder is smaller than the divisor and on the dividend's side of zero. -/
structure Truncated (a b q r : Int) : Prop where
  sum : b * q + r = a
  smaller : r.natAbs < b.natAbs
  nonneg : 0 ≤ a → 0 ≤ r
  nonpos : a ≤ 0 → r ≤ 0

theorem Truncated.divisor_ne_zero {a b q r : Int} (h : Truncated a b q r) : b ≠ 0 := by
  rintro rfl
  exact absurd h.smaller (Nat.not_lt_zero _)

theorem Truncated.eq {a b q r : Int} (h : Truncated a b q r) : a.tdiv b = q ∧ a.tmod b = r := by
  have hsum := h.sum
  have hsmaller := h.smaller
  rcases Int.le_total 0 a with ha | ha
  · have hr := h.nonneg ha
    exact (Int.tdiv_tmod_unique ha h.divisor_ne_zero).2 ⟨by omega, hr, by omega⟩
  · have hr := h.nonpos ha
    exact (Int.tdiv_tmod_unique' ha h.divisor_ne_zero).2 ⟨by omega, by omega, hr⟩

theorem truncated_tdiv_tmod {a b : Int} (hb : b ≠ 0) : Truncated a b (a.tdiv b) (a.tmod b) where
  sum := Int.mul_tdiv_add_tmod a b
  smaller := by
    rw [Int.natAbs_tmod]
    exact Nat.mod_lt _ (Int.natAbs_pos.2 hb)
  nonneg := Int.tmod_nonneg b
  nonpos ha := ((Int.tdiv_tmod_unique' ha hb).1 ⟨rfl, rfl⟩).2.2

/-- The only quotient of 64-bit integers that does not fit is that of the least one by -1. -/
theorem fitsInt64_tdiv {a b : Int64} (hb : b.toInt ≠ 0) :
    FitsInt64 (a.toInt.tdiv b.toInt) ↔ ¬ (a = .minValue ∧ b = -1) := by
  have hmin : a = .minValue ↔ a.toInt = -9223372036854775808 := by rw [← Int64.toInt_inj]; rfl
  have hone : b = -1 ↔ b.toInt = -1 := by rw [← Int64.toInt_inj]; rfl
  obtain ⟨hlow, hhigh⟩ := fitsInt64_toInt a
  rw [hmin, hone]
  generalize a.toInt = a at hlow hhigh
  generalize b.toInt = b at hb
  unfold FitsInt64
  rcases Int.lt_or_le 1 b.natAbs with hlarge | hsmall
  · -- Half of `a` at most is left.
    have hquotient : (a.tdiv b).natAbs = a.natAbs / b.natAbs := Int.natAbs_tdiv a b
    have hhalf : a.natAbs / b.natAbs ≤ a.natAbs / 2 :=
      Nat.div_le_div_left (by omega) Nat.two_pos
    omega
  · obtain rfl | rfl : b = 1 ∨ b = -1 := by omega
    · rw [Int.tdiv_one]
      omega
    · rw [Int.tdiv_neg, Int.tdiv_one]
      omega

/-- A remainder is smaller than the divisor, which fits. -/
theorem fitsInt64_tmod {a : Int} {b : Int64} (hb : b.toInt ≠ 0) : FitsInt64 (a.tmod b.toInt) := by
  have hsmaller := (truncated_tdiv_tmod (a := a) hb).smaller
  obtain ⟨hlow, hhigh⟩ := fitsInt64_toInt b
  unfold FitsInt64
  omega

/-! ## Operators -/

namespace Operator

/-- Nothing is given by a division by zero. -/
inductive Gives : Operator → Int → Int → Int → Prop where
  | add {a b : Int} : Gives .add a b (a + b)
  | sub {a b : Int} : Gives .sub a b (a - b)
  | mul {a b : Int} : Gives .mul a b (a * b)
  | div {a b q r : Int} : Truncated a b q r → Gives .div a b q
  | rem {a b q r : Int} : Truncated a b q r → Gives .rem a b r

/-- The one case in which the result fits and what it is computed from does not. -/
def LeastByMinusOne (op : Operator) (a b : Int64) : Prop := op = .rem ∧ a = .minValue ∧ b = -1

theorem Gives.eq_exact {op : Operator} {a b c : Int} (h : op.Gives a b c) : c = op.exact a b := by
  cases h with
  | add => rfl
  | sub => rfl
  | mul => rfl
  | div h => exact h.eq.1.symm
  | rem h => exact h.eq.2.symm

theorem Gives.not_zero {op : Operator} {a b c : Int} (h : op.Gives a b c) :
    ¬ (op.divides = true ∧ b = 0) := by
  rintro ⟨hop, hb⟩
  cases h with
  | add => cases hop
  | sub => cases hop
  | mul => cases hop
  | div h => exact h.divisor_ne_zero hb
  | rem h => exact h.divisor_ne_zero hb

theorem gives_exact {op : Operator} {a b : Int} (h : ¬ (op.divides = true ∧ b = 0)) :
    op.Gives a b (op.exact a b) := by
  cases op with
  | add => exact .add
  | sub => exact .sub
  | mul => exact .mul
  | div => exact .div (truncated_tdiv_tmod fun hb => h ⟨rfl, hb⟩)
  | rem => exact .rem (truncated_tdiv_tmod fun hb => h ⟨rfl, hb⟩)

theorem fitsInt64_mustFit {op : Operator} {a b : Int64}
    (h : ¬ (op.divides = true ∧ b.toInt = 0)) :
    FitsInt64 (op.mustFit a.toInt b.toInt) ↔
      FitsInt64 (op.exact a.toInt b.toInt) ∧ ¬ op.LeastByMinusOne a b := by
  cases op with
  | rem =>
    have hb : b.toInt ≠ 0 := fun hb => h ⟨rfl, hb⟩
    simp only [mustFit, exact, LeastByMinusOne, fitsInt64_tdiv hb, fitsInt64_tmod hb, true_and]
  | _ => simp [mustFit, LeastByMinusOne]

end Operator

/-! ## Results -/

section

variable {op : Operator} {a b : Int64}

theorem divides_iff : op.divides = true ↔ op = .div ∨ op = .rem := by cases op <;> decide

theorem apply_by_zero (h : op.divides = true ∧ b = 0) :
    (Value.int a).apply op (.int b) = .error .divisionByZero := by
  obtain ⟨hop, rfl⟩ := h
  simp [Value.apply, Operator.onInts, hop]

theorem apply_of_fits (h : ¬ (op.divides = true ∧ b = 0))
    (hfits : FitsInt64 (op.mustFit a.toInt b.toInt)) :
    (Value.int a).apply op (.int b) = .ok (.int (.ofInt (op.exact a.toInt b.toInt))) := by
  simp [Value.apply, Operator.onInts, fitInt64?_of_fits hfits, h]

theorem apply_of_not_fits (h : ¬ (op.divides = true ∧ b = 0))
    (hfits : ¬ FitsInt64 (op.mustFit a.toInt b.toInt)) :
    (Value.int a).apply op (.int b) = .error (.overflow op) := by
  simp [Value.apply, Operator.onInts, fitInt64?_of_not_fits hfits, h]

theorem toInt_eq_zero : b.toInt = 0 ↔ b = 0 := by rw [← Int64.toInt_inj, Int64.toInt_zero]

/-- What an operator gives is the result, or else does not fit; nothing else can happen. -/
theorem apply_of_gives {c : Int} (h : op.Gives a.toInt b.toInt c) :
    (FitsInt64 c ∧ ¬ op.LeastByMinusOne a b ∧
        (Value.int a).apply op (.int b) = .ok (.int (.ofInt c))) ∨
      ((¬ FitsInt64 c ∨ op.LeastByMinusOne a b) ∧
        (Value.int a).apply op (.int b) = .error (.overflow op)) := by
  have hzero := h.not_zero
  have hmust := Operator.fitsInt64_mustFit (a := a) hzero
  rw [toInt_eq_zero] at hzero
  rw [← h.eq_exact] at hmust
  by_cases hfits : FitsInt64 (op.mustFit a.toInt b.toInt)
  · have hc := hmust.1 hfits
    have hresult := apply_of_fits hzero hfits
    rw [← h.eq_exact] at hresult
    exact .inl ⟨hc.1, hc.2, hresult⟩
  · have hc := mt hmust.2 hfits
    rw [Classical.not_and_iff_not_or_not, Classical.not_not] at hc
    exact .inr ⟨hc, apply_of_not_fits hzero hfits⟩

theorem negate_int (a : Int64) :
    (FitsInt64 (-a.toInt) ∧ (Value.int a).negate = .ok (.int (.ofInt (-a.toInt)))) ∨
      (¬ FitsInt64 (-a.toInt) ∧ (Value.int a).negate = .error (.overflow .sub)) := by
  by_cases h : FitsInt64 (-a.toInt)
  · exact .inl ⟨h, by simp [Value.negate, fitInt64?_of_fits h]⟩
  · exact .inr ⟨h, by simp [Value.negate, fitInt64?_of_not_fits h]⟩

theorem existsUnique_gives :
    (∃! c, op.Gives a.toInt b.toInt c) ↔ ¬ (op.divides = true ∧ b = 0) := by
  rw [← toInt_eq_zero]
  constructor
  · rintro ⟨c, hc, -⟩
    exact hc.not_zero
  · intro h
    exact ⟨_, Operator.gives_exact h, fun c hc => hc.eq_exact⟩

end

/--
The result of an operator on two 64-bit integers is what it gives on all integers, whenever that
fits, and so it is with unary minus. There is one exception: the least integer has no remainder by
-1, although that is zero, because there is no quotient.
-/
theorem integers_exact (op : Operator) (a b : Int64) :
    let result := (Value.int a).apply op (.int b)
    let negated := (Value.int a).negate
    (result = .error .divisionByZero ↔ (op = .div ∨ op = .rem) ∧ b = 0) ∧
      ((∃! c, op.Gives a.toInt b.toInt c) ↔ ¬ ((op = .div ∨ op = .rem) ∧ b = 0)) ∧
      (∀ c, op.Gives a.toInt b.toInt c →
        ((∃ i : Int64, i.toInt = c ∧ result = .ok (.int i)) ↔
            FitsInt64 c ∧ ¬ op.LeastByMinusOne a b) ∧
          (result = .error (.overflow op) ↔ ¬ FitsInt64 c ∨ op.LeastByMinusOne a b)) ∧
      ((∃ i : Int64, i.toInt = -a.toInt ∧ negated = .ok (.int i)) ↔ FitsInt64 (-a.toInt)) ∧
      (negated = .error (.overflow .sub) ↔ ¬ FitsInt64 (-a.toInt)) := by
  intro result negated
  rw [← divides_iff]
  refine ⟨⟨fun hzero => ?_, apply_by_zero⟩, existsUnique_gives, fun c hc => ?_, ?_⟩
  · refine Classical.byContradiction fun h => ?_
    obtain ⟨c, hc, -⟩ := existsUnique_gives.2 h
    rcases apply_of_gives hc with ⟨-, -, hresult⟩ | ⟨-, hresult⟩
    · cases hzero.symm.trans hresult
    · cases hzero.symm.trans hresult
  · rcases apply_of_gives hc with ⟨hfits, hleast, hresult⟩ | ⟨hunfit, hresult⟩
    · have hok : ∃ i : Int64, i.toInt = c ∧ result = .ok (.int i) :=
        ⟨_, toInt_ofInt_of_fits hfits, hresult⟩
      refine ⟨iff_of_true hok ⟨hfits, hleast⟩, iff_of_false (fun h => ?_) ?_⟩
      · cases h.symm.trans hresult
      · exact not_or.2 ⟨not_not_intro hfits, hleast⟩
    · refine ⟨iff_of_false ?_ fun h => ?_, iff_of_true hresult hunfit⟩
      · rintro ⟨i, -, hok⟩
        cases hok.symm.trans hresult
      · exact hunfit.elim (fun hn => hn h.1) h.2
  · rcases negate_int a with ⟨hfits, hnegated⟩ | ⟨hunfit, hnegated⟩
    · refine ⟨iff_of_true ⟨_, toInt_ofInt_of_fits hfits, hnegated⟩ hfits,
        iff_of_false (fun h => ?_) (not_not_intro hfits)⟩
      cases h.symm.trans hnegated
    · refine ⟨iff_of_false ?_ hunfit, iff_of_true hnegated hunfit⟩
      rintro ⟨i, -, hok⟩
      cases hok.symm.trans hnegated

/-! ### The least integer -/

/-- Its quotient by -1 is one more than the greatest integer. -/
theorem integers_exact_least :
    Operator.div.Gives Int64.minValue.toInt (-1 : Int64).toInt 9223372036854775808 ∧
      ¬ FitsInt64 9223372036854775808 ∧
      (Value.int .minValue).apply .div (.int (-1)) = .error (.overflow .div) := by
  have hgives : Operator.div.Gives Int64.minValue.toInt (-1 : Int64).toInt 9223372036854775808 :=
    .div (r := 0) ⟨by decide, by decide, by decide, by decide⟩
  have hunfit : ¬ FitsInt64 9223372036854775808 := by decide
  exact ⟨hgives, hunfit,
    ((integers_exact .div .minValue (-1)).2.2.1 _ hgives).2.2 (.inl hunfit)⟩

/-- Its remainder by -1 is zero, which fits, and there is no result. -/
theorem remainder_of_least :
    Operator.rem.Gives Int64.minValue.toInt (-1 : Int64).toInt 0 ∧ FitsInt64 0 ∧
      (Value.int .minValue).apply .rem (.int (-1)) = .error (.overflow .rem) := by
  refine ⟨?_, by decide, rfl⟩
  exact .rem (q := 9223372036854775808) ⟨by decide, by decide, by decide, by decide⟩

end Linkage
