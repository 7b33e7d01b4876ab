import Linkage.Build.External

/-!
# Linkage.Proofs.Build.External

The values of other modules' constants as derivations.

* `Snapshot.Derives n m e v` — the expression `e`, standing in the module `m`, has the value `v`
  by a derivation of at most `n` levels.
* `Snapshot.HasValue m c v` — the constant `c` of the module `m` has the value `v` for a compile.
* `exprValue?_eq_some`, `constValue?_eq_some` — these are the values that a compile finds.
-/

namespace Linkage
namespace Snapshot

inductive Derives (s : Snapshot) : Nat → String → ConstExpr → Value → Prop where
  | literal {n : Nat} {m : String} {v : Value} : Derives s (n + 1) m (.literal v) v
  | stored {n : Nat} {m : String} {q : Option String} {x : String} {c : ConstDef} {v : Value} :
      s.const? (q.getD m) x = some c → c.init = .value v → Derives s (n + 1) m (.ref q x) v
  | unfolded {n : Nat} {m : String} {q : Option String} {x : String} {c : ConstDef}
      {e : ConstExpr} {v : Value} :
      s.const? (q.getD m) x = some c → c.init = .expr e → Derives s n (q.getD m) e v →
      Derives s (n + 1) m (.ref q x) v
  | negate {n : Nat} {m : String} {e : ConstExpr} {v w : Value} :
      Derives s n m e v → v.negate = .ok w → Derives s (n + 1) m (.negate e) w
  | binary {n : Nat} {m : String} {op : Operator} {l r : ConstExpr} {v w x : Value} :
      Derives s n m l v → Derives s n m r w → v.apply op w = .ok x →
      Derives s (n + 1) m (.binary op l r) x

/-- The levels of the derivation are all that a compile pays for. -/
def HasValue (s : Snapshot) (m : String) (c : ConstDef) (v : Value) : Prop :=
  match c.init with
  | .value w => w = v
  | .expr e => s.Derives externalLevels m e v

variable {s : Snapshot}

theorem Derives.succ {n : Nat} {m : String} {e : ConstExpr} {v : Value} (h : s.Derives n m e v) :
    s.Derives (n + 1) m e v := by
  induction h with
  | literal => exact .literal
  | stored hc hv => exact .stored hc hv
  | unfolded hc he _ ih => exact .unfolded hc he ih
  | negate _ hw ih => exact .negate ih hw
  | binary _ _ hx ihl ihr => exact .binary ihl ihr hx

theorem Derives.mono {n k : Nat} {m : String} {e : ConstExpr} {v : Value}
    (h : s.Derives n m e v) (hk : n ≤ k) : s.Derives k m e v := by
  induction hk with
  | refl => exact h
  | step _ ih => exact ih.succ

theorem hasValue_of_value {m : String} {c : ConstDef} {v : Value} (h : c.init = .value v) :
    s.HasValue m c v := by
  simp only [HasValue, h]

theorem hasValue_of_derives {m : String} {c : ConstDef} {e : ConstExpr} {v : Value}
    (h : c.init = .expr e) (hd : s.Derives externalLevels m e v) : s.HasValue m c v := by
  simp only [HasValue, h, hd]

theorem toOption_eq_some {x : Except ArithmeticError Value} {v : Value} :
    x.toOption = some v ↔ x = .ok v := by
  cases x <;> simp [Except.toOption]

theorem exprValue?_of_derives {n : Nat} {m : String} {e : ConstExpr} {v : Value}
    (h : s.Derives n m e v) : s.exprValue? n m e = some v := by
  induction h with
  | literal => rfl
  | stored hc hv => simp only [exprValue?, hc, hv]
  | unfolded hc he _ ih => simp only [exprValue?, hc, he, ih]
  | negate _ hw ih => simp only [exprValue?, ih, hw, Except.toOption]
  | binary _ _ hx ihl ihr => simp only [exprValue?, ihl, ihr, hx, Except.toOption]

theorem derives_of_exprValue? {n : Nat} : ∀ {m : String} {e : ConstExpr} {v : Value},
    s.exprValue? n m e = some v → s.Derives n m e v := by
  induction n with
  | zero =>
    intro m e v h
    simp [exprValue?] at h
  | succ n ih =>
    intro m e v h
    cases e with
    | literal w =>
      cases h
      exact .literal
    | ref q x =>
      simp only [exprValue?] at h
      split at h
      · cases h
      · rename_i c hc
        split at h
        · rename_i w hw
          cases h
          exact .stored hc hw
        · rename_i e he
          exact .unfolded hc he (ih h)
    | negate e =>
      simp only [exprValue?] at h
      split at h
      · cases h
      · rename_i w hw
        exact .negate (ih hw) (toOption_eq_some.1 h)
    | binary op l r =>
      simp only [exprValue?] at h
      split at h
      · cases h
      · rename_i a ha
        split at h
        · cases h
        · rename_i b hb
          exact .binary (ih ha) (ih hb) (toOption_eq_some.1 h)

theorem exprValue?_eq_some {n : Nat} {m : String} {e : ConstExpr} {v : Value} :
    s.exprValue? n m e = some v ↔ s.Derives n m e v :=
  ⟨derives_of_exprValue?, exprValue?_of_derives⟩

theorem constValue?_eq_some {m : String} {c : ConstDef} {v : Value} :
    s.constValue? m c = some v ↔ s.HasValue m c v := by
  unfold constValue? HasValue
  cases c.init with
  | value w => exact Option.some_inj
  | expr e => exact exprValue?_eq_some

end Snapshot
end Linkage
