import Linkage.Proofs.Evaluation.Composition

/-!
# Linkage.Proofs.Value.Kinds

The kind of a constant expression is known before it is evaluated.

* `ConstExpr.kind?` — the kind of an expression from the kinds of what it refers to.
* `apply_of_resultKind`, `apply_of_no_resultKind` — an operator refuses two values exactly if their
  kinds have no result, and gives a value of the resulting kind otherwise, if it gives one.
* `kind?_of_valueOver`, `valueOver_of_kind?` — the same of expressions, whatever the values of
  their references.
* `kinds_predict` — an expression that has a kind gives a value of it, divides by zero or
  overflows, and one that has none gives no value.
-/

namespace Linkage

/-- The kind that the operators give, if they apply to the kinds of their operands. -/
def ConstExpr.kind? (kindOf : Option String → String → Option Kind) : ConstExpr → Option Kind
  | .literal v => some v.kind
  | .ref m x => kindOf m x
  | .negate e =>
    match e.kind? kindOf with
    | some k => if k.isNumeric then some k else none
    | none => none
  | .binary op l r =>
    match l.kind? kindOf, r.kind? kindOf with
    | some k, some j => op.resultKind k j
    | _, _ => none

/-- The errors that say that an operator does not apply to values of these kinds. -/
inductive ArithmeticError.OfKinds : ArithmeticError → Prop where
  | mismatch (op : Operator) (lhs rhs : Kind) : OfKinds (.mismatch op lhs rhs)
  | notNumeric (kind : Kind) : OfKinds (.notNumeric kind)

/-- A value of this kind, or an error that values of other kinds would not mend. -/
inductive HasKind (k : Kind) : Except ArithmeticError Value → Prop where
  | value {v : Value} : v.kind = k → HasKind k (.ok v)
  | divisionByZero : HasKind k (.error .divisionByZero)
  | overflow (op : Operator) : HasKind k (.error (.overflow op))

/-! ## Values -/

theorem negate_of_numeric {v : Value} (h : v.kind.isNumeric = true) : HasKind v.kind v.negate := by
  cases v with
  | int i =>
    simp only [Value.negate]
    split
    · exact .value rfl
    · exact .overflow .sub
  | float x => exact .value rfl
  | bool b => cases h
  | string s => cases h

theorem negate_of_not_numeric {v : Value} (h : v.kind.isNumeric = false) :
    v.negate = .error (.notNumeric v.kind) := by
  cases v with
  | int i => cases h
  | float x => cases h
  | bool b => rfl
  | string s => rfl

theorem hasKind_onInts (op : Operator) (a b : Int64) :
    HasKind .int ((Value.int a).apply op (.int b)) := by
  simp only [Value.apply, Operator.onInts]
  split
  · rename_i h
    split at h
    · cases h
      exact .divisionByZero
    · split at h
      · cases h
      · cases h
        exact .overflow op
  · exact .value rfl

/-- Floats overflow to infinity, which is a value. -/
theorem onFloats_cases (op : Operator) (x y : Binary64) :
    op.onFloats x y = .error .divisionByZero ∨ ∃ z, op.onFloats x y = .ok z := by
  cases op with
  | add => exact .inr ⟨_, rfl⟩
  | sub => exact .inr ⟨_, rfl⟩
  | mul => exact .inr ⟨_, rfl⟩
  | div =>
    simp only [Operator.onFloats]
    split
    · exact .inl rfl
    · exact .inr ⟨_, rfl⟩
  | rem =>
    simp only [Operator.onFloats]
    split
    · exact .inl rfl
    · exact .inr ⟨_, rfl⟩

theorem hasKind_onFloats (op : Operator) (x y : Binary64) :
    HasKind .float (match op.onFloats x y with
      | .error e => .error e
      | .ok z => .ok (.float z)) := by
  rcases onFloats_cases op x y with h | ⟨z, h⟩
  · rw [h]
    exact .divisionByZero
  · rw [h]
    exact .value rfl

/-- Both go through the kinds of the operands, one by promotion to floats and one by a table. -/
theorem apply_of_resultKind {op : Operator} {v w : Value} {k : Kind}
    (h : op.resultKind v.kind w.kind = some k) : HasKind k (v.apply op w) := by
  cases v <;> cases w <;> try cases h
  case int.int a b => exact hasKind_onInts op a b
  case int.float a y => exact hasKind_onFloats op _ y
  case float.int x b => exact hasKind_onFloats op x _
  case float.float x y => exact hasKind_onFloats op x y
  case string.string s t =>
    simp only [Value.kind, Operator.resultKind, Option.ite_none_right_eq_some] at h
    obtain ⟨rfl, hk⟩ := h
    cases hk
    exact .value rfl

theorem apply_of_no_resultKind {op : Operator} {v w : Value}
    (h : op.resultKind v.kind w.kind = none) :
    v.apply op w = .error (.mismatch op v.kind w.kind) := by
  cases v <;> cases w <;> try rfl
  case int.int => cases h
  case int.float => cases h
  case float.int => cases h
  case float.float => cases h
  case string.string s t =>
    simp only [Value.kind, Operator.resultKind, ite_eq_right_iff] at h
    exact if_neg fun hop => nomatch h hop

theorem HasKind.kind_eq {k : Kind} {v : Value} (h : HasKind k (.ok v)) : v.kind = k := by
  cases h with
  | value hv => exact hv

/-- The kind of the value that is missing plays no part in an error. -/
theorem HasKind.of_error {k j : Kind} {x : ArithmeticError} (h : HasKind k (.error x)) :
    HasKind j (.error x) := by
  cases h with
  | divisionByZero => exact .divisionByZero
  | overflow op => exact .overflow op

theorem HasKind.not_ofKinds {k : Kind} {x : ArithmeticError} (h : HasKind k (.error x)) :
    ¬ x.OfKinds := by
  cases h with
  | divisionByZero => exact fun hx => nomatch hx
  | overflow op => exact fun hx => nomatch hx

/-! ## Expressions -/

namespace Evaluation

/-- The kinds of these values; a reference without a value has no kind. -/
def kindsOf (values : Option String → String → Except EvalError Value) (m : Option String)
    (x : String) : Option Kind :=
  match values m x with
  | .ok v => some v.kind
  | .error _ => none

/-- The kinds of the values known to an expression that stands in this module. -/
def Known.kindOf (known : Known) (home : String) (m : Option String) (x : String) : Option Kind :=
  (known.lookup (m.getD home, x)).map Value.kind

theorem settle_eq_ok {r : Except ArithmeticError Value} {v : Value} :
    settle r = .ok v ↔ r = .ok v := by
  cases r <;> simp [settle]

variable {values : Option String → String → Except EvalError Value}

theorem kind?_of_valueOver {e : ConstExpr} {v : Value} (h : e.valueOver values = .ok v) :
    e.kind? (kindsOf values) = some v.kind := by
  induction e generalizing v with
  | literal w =>
    cases h
    rfl
  | ref m x =>
    rw [ConstExpr.valueOver] at h
    rw [ConstExpr.kind?, kindsOf, h]
  | negate e ih =>
    rw [ConstExpr.valueOver] at h
    split at h
    · cases h
    · rename_i w hw
      have hv := settle_eq_ok.1 h
      simp only [ConstExpr.kind?, ih hw]
      cases hk : w.kind.isNumeric with
      | true =>
        have hkind := negate_of_numeric hk
        rw [hv] at hkind
        rw [if_pos rfl, hkind.kind_eq]
      | false =>
        rw [negate_of_not_numeric hk] at hv
        cases hv
  | binary op l r ihl ihr =>
    rw [ConstExpr.valueOver] at h
    split at h
    · cases h
    · rename_i w hw
      split at h
      · cases h
      · rename_i u hu
        have hv := settle_eq_ok.1 h
        simp only [ConstExpr.kind?, ihl hw, ihr hu]
        cases hk : op.resultKind w.kind u.kind with
        | some k =>
          have hkind := apply_of_resultKind hk
          rw [hv] at hkind
          rw [hkind.kind_eq]
        | none =>
          rw [apply_of_no_resultKind hk] at hv
          cases hv

/-- Where an operand fails, the expression fails in the same way. -/
theorem valueOver_of_kind? {e : ConstExpr} {k : Kind} (h : e.kind? (kindsOf values) = some k) :
    ∃ r, HasKind k r ∧ e.valueOver values = settle r := by
  induction e generalizing k with
  | literal v =>
    cases h
    exact ⟨.ok v, .value rfl, rfl⟩
  | ref m x =>
    rw [ConstExpr.kind?, kindsOf] at h
    split at h
    · rename_i v hv
      cases h
      exact ⟨.ok v, .value rfl, hv⟩
    · cases h
  | negate e ih =>
    rw [ConstExpr.kind?] at h
    split at h
    · rename_i j hj
      rw [Option.ite_none_right_eq_some] at h
      obtain ⟨hnumeric, hk⟩ := h
      cases hk
      obtain ⟨r, hr, hvalue⟩ := ih hj
      rw [ConstExpr.valueOver, hvalue]
      cases r with
      | error x => exact ⟨.error x, hr.of_error, rfl⟩
      | ok v =>
        obtain rfl := hr.kind_eq
        exact ⟨v.negate, negate_of_numeric hnumeric, rfl⟩
    · cases h
  | binary op l r ihl ihr =>
    rw [ConstExpr.kind?] at h
    split at h
    · rename_i i j hi hj
      obtain ⟨left, hleft, hlvalue⟩ := ihl hi
      obtain ⟨right, hright, hrvalue⟩ := ihr hj
      rw [ConstExpr.valueOver, hlvalue, hrvalue]
      cases left with
      | error x => exact ⟨.error x, hleft.of_error, rfl⟩
      | ok v =>
        cases right with
        | error x => exact ⟨.error x, hright.of_error, rfl⟩
        | ok w =>
          obtain rfl := hleft.kind_eq
          obtain rfl := hright.kind_eq
          exact ⟨v.apply op w, apply_of_resultKind h, rfl⟩
    · cases h

/-- What the kind of an expression, or that it has none, says of its evaluation. -/
structure Predicts (kind? : Option Kind) (result : Except EvalError Value) : Prop where
  value : ∀ v, result = .ok v → kind? = some v.kind
  no_value : kind? = none → ∃ x, result = .error x
  refused : ∀ x : ArithmeticError, x.OfKinds → result = .error (.arithmetic x) → kind? = none
  /-- With a kind nothing can fail but a division by zero and an overflow. -/
  has_kind : ∀ k, kind? = some k → ∃ r, HasKind k r ∧ result = settle r

theorem predicts_valueOver (e : ConstExpr) :
    Predicts (e.kind? (kindsOf values)) (e.valueOver values) where
  value _ := kind?_of_valueOver
  no_value hnone := by
    cases hresult : e.valueOver values with
    | error x => exact ⟨x, rfl⟩
    | ok v => cases hnone.symm.trans (kind?_of_valueOver hresult)
  refused x hx herror := by
    cases hkind : e.kind? (kindsOf values) with
    | none => rfl
    | some k =>
      obtain ⟨r, hr, hsettle⟩ := valueOver_of_kind? hkind
      cases r with
      | ok v => cases hsettle.symm.trans herror
      | error y =>
        cases hsettle.symm.trans herror
        exact absurd hx hr.not_ofKinds
  has_kind _ := valueOver_of_kind?

theorem kindOf_eq_kindsOf (known : Known) (home : String) :
    known.kindOf home = kindsOf fun m x =>
      match known.lookup (m.getD home, x) with
      | some v => .ok v
      | none => .error (.unknownConstant (m.getD home) x) := by
  funext m x
  rw [Known.kindOf, kindsOf]
  cases known.lookup (m.getD home, x) <;> rfl

/--
The kinds of the references decide the kind of an expression before anything is evaluated, for any
values of these kinds, and so they do for the values that are known when a constant is computed.
-/
theorem kinds_predict (e : ConstExpr) :
    (∀ values, Predicts (e.kind? (kindsOf values)) (e.valueOver values)) ∧
      ∀ (known : Known) (home : String),
        Predicts (e.kind? (known.kindOf home)) (compute known home e) := by
  refine ⟨fun values => predicts_valueOver e, fun known home => ?_⟩
  rw [kindOf_eq_kindsOf, compute_eq_valueOver]
  exact predicts_valueOver e

/-! ### Another error first -/

/-- `1 / 0 + -"a"` has no kind, but what fails first is the division. -/
def brokenTwice : ConstExpr :=
  .binary .add (.binary .div (.literal (.int 1)) (.literal (.int 0)))
    (.negate (.literal (.string "a")))

/-- `-Core.MAX - TITLE`, where the operands are an integer and a string. -/
def misfit : ConstExpr := .binary .sub (.negate (.ref (some "Core") "MAX")) (.ref none "TITLE")

def knownOfCore : Known := [(("Core", "MAX"), .int 10), (("Mod", "TITLE"), .string "a")]

theorem kinds_predict_misfit :
    compute knownOfCore "Mod" misfit =
        .error (.arithmetic (.mismatch .sub .int .string)) ∧
      misfit.kind? (knownOfCore.kindOf "Mod") = none ∧
      brokenTwice.kind? (knownOfCore.kindOf "Mod") = none ∧
      compute knownOfCore "Mod" brokenTwice = .error (.arithmetic .divisionByZero) ∧
      compute knownOfCore "Mod" (.negate (.ref (some "Core") "MAX")) = .ok (.int (-10)) ∧
      (ConstExpr.negate (.ref (some "Core") "MAX")).kind? (knownOfCore.kindOf "Mod") =
        some .int := by
  have hmisfit : compute knownOfCore "Mod" misfit =
      .error (.arithmetic (.mismatch .sub .int .string)) := rfl
  have hvalue : compute knownOfCore "Mod" (.negate (.ref (some "Core") "MAX")) =
      .ok (.int (-10)) := rfl
  exact ⟨hmisfit,
    ((kinds_predict misfit).2 knownOfCore "Mod").refused _ (.mismatch _ _ _) hmisfit,
    rfl, rfl, hvalue, ((kinds_predict _).2 knownOfCore "Mod").value _ hvalue⟩

end Evaluation
end Linkage
