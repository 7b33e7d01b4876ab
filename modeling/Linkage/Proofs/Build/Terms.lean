import Linkage.Build.Constants
import Linkage.Proofs.Build.Paths
import Linkage.Proofs.Build.Registration

/-!
# Linkage.Proofs.Build.Terms

Initializers as terms, and the values of terms.

* `Scope.Resolves e t` — `t` is the expression `e` with its paths resolved.
* `Scope.resolveExpr_of_resolves` — resolving takes the modules that the term leads into.
* `Term.eval_congr` — the value of a term depends on its dependencies only.
* `Term.isSome_of_eval_eq_nil` — no silence without a value: a term over known values either has
  a value or says why not.
-/

namespace Linkage

/-- The other modules that the term leads into. -/
def Term.modules : Term → List String
  | .literal _ => []
  | .own _ => []
  | .imported m _ _ => [m]
  | .negate t _ => t.modules
  | .binary _ l r _ => l.modules ++ r.modules

/-! ## Resolving -/

namespace Scope

inductive Resolves (s : Scope) : Script.Expr → Term → Prop where
  | literal {v : Value} {span : Span} : Resolves s (.literal v span) (.literal v)
  | own {p : Script.Path} {id : Nat} :
      (s.constTarget p).found = .ok (.own id) → Resolves s (.path p) (.own id)
  | imported {p : Script.Path} {m : String} {c : ConstDef} :
      (s.constTarget p).found = .ok (.imported m c) → Resolves s (.path p) (.imported m c p.span)
  | negate {e : Script.Expr} {t : Term} {span : Span} :
      Resolves s e t → Resolves s (.negate e span) (.negate t span)
  | binary {op : Operator} {l r : Script.Expr} {t u : Term} {span : Span} :
      Resolves s l t → Resolves s r u → Resolves s (.binary op l r span) (.binary op t u span)

def PathsFound (s : Scope) (e : Script.Expr) : Prop :=
  ∀ p ∈ e.paths, ∃ target, (s.constTarget p).found = .ok target

variable {s : Scope}

/-- Resolving an expression takes the modules that its term leads into. -/
theorem resolveExpr_of_resolves {e : Script.Expr} {t : Term} (h : s.Resolves e t) (unit : Nat) :
    s.resolveExpr unit e = ⟨some t, [], t.modules⟩ := by
  induction h with
  | literal => rfl
  | own ht => simp only [resolveExpr, ht, modules_constTarget_own ht, Term.modules]
  | imported ht => simp only [resolveExpr, ht, modules_constTarget_imported ht, Term.modules]
  | negate _ ih => simp only [resolveExpr, ih, Option.map_some, Term.modules]
  | binary _ _ ihl ihr => simp only [resolveExpr, ihl, ihr, List.append_nil, Term.modules]

theorem resolves_of_resolveExpr {unit : Nat} {e : Script.Expr} {t : Term}
    (h : (s.resolveExpr unit e).1 = some t) : s.Resolves e t := by
  induction e generalizing t with
  | literal v span =>
    cases h
    exact .literal
  | path p =>
    unfold resolveExpr at h
    split at h
    · rename_i htarget
      cases h
      exact .own htarget
    · rename_i htarget
      cases h
      exact .imported htarget
    · cases h
  | negate e span ih =>
    obtain ⟨u, hu, rfl⟩ := Option.map_eq_some_iff.1 h
    exact .negate (ih hu)
  | binary op l r span ihl ihr =>
    unfold resolveExpr at h
    dsimp only at h
    split at h
    · rename_i hl hr
      cases h
      exact .binary (ihl hl) (ihr hr)
    · cases h

theorem Resolves.unique {e : Script.Expr} {t u : Term} (ht : s.Resolves e t)
    (hu : s.Resolves e u) : t = u := by
  have h := (resolveExpr_of_resolves ht 0).symm.trans (resolveExpr_of_resolves hu 0)
  exact Option.some_inj.1 (congrArg Pass.result h)

theorem exists_resolves {e : Script.Expr} (h : s.PathsFound e) : ∃ t, s.Resolves e t := by
  induction e with
  | literal v span => exact ⟨_, .literal⟩
  | path p =>
    obtain ⟨target, ht⟩ := h p List.mem_cons_self
    cases target with
    | own id => exact ⟨_, .own ht⟩
    | imported m c => exact ⟨_, .imported ht⟩
  | negate e span ih =>
    obtain ⟨t, ht⟩ := ih h
    exact ⟨_, .negate ht⟩
  | binary op l r span ihl ihr =>
    obtain ⟨t, ht⟩ := ihl fun p hp => h p (List.mem_append_left _ hp)
    obtain ⟨u, hu⟩ := ihr fun p hp => h p (List.mem_append_right _ hp)
    exact ⟨_, .binary ht hu⟩

theorem resolveExpr_eq_nil {unit : Nat} {e : Script.Expr} :
    (s.resolveExpr unit e).2 = [] ↔ s.PathsFound e := by
  constructor
  · induction e with
    | literal v span => exact fun _ _ hp => nomatch hp
    | path p =>
      intro h q hq
      obtain rfl := List.mem_singleton.1 hq
      cases ht : (s.constTarget q).found with
      | ok target => exact ⟨target, rfl⟩
      | error e => simp [resolveExpr, ht] at h
    | negate e span ih => exact ih
    | binary op l r span ihl ihr =>
      intro h
      have happend : (s.resolveExpr unit l).2 ++ (s.resolveExpr unit r).2 = [] := by
        simp only [resolveExpr] at h
        split at h <;> exact h
      obtain ⟨hl, hr⟩ := List.append_eq_nil_iff.1 happend
      exact List.forall_mem_append.2 ⟨ihl hl, ihr hr⟩
  · intro h
    obtain ⟨t, ht⟩ := exists_resolves h
    rw [resolveExpr_of_resolves ht]

theorem allErrors_resolveExpr (unit : Nat) (e : Script.Expr) :
    AllErrors (s.resolveExpr unit e).2 := by
  induction e with
  | literal v span => exact allErrors_nil
  | path p =>
    unfold resolveExpr
    split
    · exact allErrors_nil
    · exact allErrors_nil
    · rename_i herror
      exact allErrors_singleton (constTarget_error herror) unit _
  | negate e span ih => exact ih
  | binary op l r span ihl ihr =>
    unfold resolveExpr
    dsimp only
    split <;> exact allErrors_append.2 ⟨ihl, ihr⟩

theorem mem_dependencies {e : Script.Expr} {t : Term} (h : s.Resolves e t) {id : Nat} :
    id ∈ t.dependencies ↔ ∃ p ∈ e.paths, (s.constTarget p).found = .ok (.own id) := by
  induction h with
  | literal => simp [Term.dependencies, Script.Expr.paths]
  | own ht =>
    simp only [Term.dependencies, Script.Expr.paths, List.mem_singleton, exists_eq_left, ht,
      Except.ok.injEq, ConstTarget.own.injEq]
    exact eq_comm
  | imported ht => simp [Term.dependencies, Script.Expr.paths, ht]
  | negate _ ih => exact ih
  | binary _ _ ihl ihr =>
    simp only [Term.dependencies, Script.Expr.paths, List.mem_append, ihl, ihr, or_and_right,
      exists_or]

end Scope

/-! ## Values -/

namespace Term

variable {snapshot : Snapshot} {values : Nat → Option Value} {unit : Nat}

theorem eval_congr {others : Nat → Option Value} {t : Term}
    (h : ∀ j ∈ t.dependencies, values j = others j) :
    t.eval snapshot values unit = t.eval snapshot others unit := by
  induction t with
  | literal v => rfl
  | own id => rw [eval, eval, h id List.mem_cons_self]
  | imported m c span => rfl
  | negate t span ih => simp only [eval, ih h]
  | binary op l r span ihl ihr =>
    simp only [eval, ihl fun j hj => h j (List.mem_append_left _ hj),
      ihr fun j hj => h j (List.mem_append_right _ hj)]

theorem settle_fst {span : Span} {x : Except ArithmeticError Value} {v : Value} :
    (settle unit span x).1 = some v ↔ x = .ok v := by
  cases x <;> simp [settle]

theorem eval_imported_eq_some {m : String} {c : ConstDef} {span : Span} {v : Value} :
    ((imported m c span).eval snapshot values unit).1 = some v ↔ snapshot.HasValue m c v := by
  rw [← Snapshot.constValue?_eq_some, eval]
  cases snapshot.constValue? m c <;> simp

theorem eval_negate_eq_some {t : Term} {span : Span} {w : Value} :
    ((negate t span).eval snapshot values unit).1 = some w ↔
      ∃ v, (t.eval snapshot values unit).1 = some v ∧ v.negate = .ok w := by
  rw [eval]
  split
  · rename_i hx
    simp [hx]
  · rename_i hx
    simp only [hx, settle_fst, Option.some.injEq, exists_eq_left']

theorem eval_binary_eq_some {op : Operator} {l r : Term} {span : Span} {x : Value} :
    ((binary op l r span).eval snapshot values unit).1 = some x ↔
      ∃ v w, (l.eval snapshot values unit).1 = some v ∧ (r.eval snapshot values unit).1 = some w ∧
        v.apply op w = .ok x := by
  rw [eval]
  dsimp only
  split
  · rename_i hl hr
    simp only [hl, hr, settle_fst, Option.some.injEq, exists_and_left, exists_eq_left']
  · rename_i hnone
    refine iff_of_false (fun he => nomatch he) ?_
    rintro ⟨v, w, hl, hr, -⟩
    exact hnone v w hl hr

theorem allErrors_settle (span : Span) (x : Except ArithmeticError Value) :
    AllErrors (settle unit span x).2 := by
  cases x with
  | ok v => exact allErrors_nil
  | error e => exact allErrors_singleton (by cases e <;> rfl) unit span

theorem allErrors_eval (t : Term) : AllErrors (t.eval snapshot values unit).2 := by
  induction t with
  | literal v => exact allErrors_nil
  | own id => exact allErrors_nil
  | imported m c span =>
    unfold eval
    split
    · exact allErrors_nil
    · exact allErrors_singleton rfl unit span
  | negate t span ih =>
    unfold eval
    split
    · rename_i hx
      rwa [hx] at ih
    · rename_i hx
      rw [hx] at ih
      exact allErrors_append.2 ⟨ih, allErrors_settle span _⟩
  | binary op l r span ihl ihr =>
    unfold eval
    dsimp only
    split
    · exact allErrors_append.2 ⟨allErrors_append.2 ⟨ihl, ihr⟩, allErrors_settle span _⟩
    · exact allErrors_append.2 ⟨ihl, ihr⟩

theorem eval_eq_nil_of_isSome {t : Term} (h : (t.eval snapshot values unit).1.isSome = true) :
    (t.eval snapshot values unit).2 = [] := by
  induction t with
  | literal v => rfl
  | own id => rfl
  | imported m c span =>
    unfold eval at h ⊢
    split at h
    · rfl
    · cases h
  | negate t span ih =>
    obtain ⟨w, hw⟩ := Option.isSome_iff_exists.1 h
    obtain ⟨v, hv, hneg⟩ := eval_negate_eq_some.1 hw
    have heval : t.eval snapshot values unit = (some v, []) :=
      Prod.ext hv (ih (Option.isSome_iff_exists.2 ⟨v, hv⟩))
    simp only [eval, heval, hneg, settle, List.append_nil]
  | binary op l r span ihl ihr =>
    obtain ⟨x, hx⟩ := Option.isSome_iff_exists.1 h
    obtain ⟨v, w, hv, hw, happly⟩ := eval_binary_eq_some.1 hx
    have hl : l.eval snapshot values unit = (some v, []) :=
      Prod.ext hv (ihl (Option.isSome_iff_exists.2 ⟨v, hv⟩))
    have hr : r.eval snapshot values unit = (some w, []) :=
      Prod.ext hw (ihr (Option.isSome_iff_exists.2 ⟨w, hw⟩))
    simp only [eval, hl, hr, happly, settle, List.append_nil]

/-- Whatever has no value over known values says so. -/
theorem isSome_of_eval_eq_nil {t : Term} (hd : ∀ j ∈ t.dependencies, (values j).isSome = true)
    (h : (t.eval snapshot values unit).2 = []) :
    (t.eval snapshot values unit).1.isSome = true := by
  induction t with
  | literal v => rfl
  | own id => exact hd id List.mem_cons_self
  | imported m c span =>
    unfold eval at h ⊢
    split at h
    · rfl
    · cases h
  | negate t span ih =>
    unfold eval at h ⊢
    split at h
    · rename_i hx
      have := ih hd (by rw [hx]; exact h)
      rw [hx] at this
      cases this
    · rename_i v ds hx
      obtain ⟨-, hsettle⟩ := List.append_eq_nil_iff.1 h
      cases hneg : v.negate with
      | ok w => rfl
      | error e =>
        rw [hneg] at hsettle
        cases hsettle
  | binary op l r span ihl ihr =>
    have hl := ihl fun j hj => hd j (List.mem_append_left _ hj)
    have hr := ihr fun j hj => hd j (List.mem_append_right _ hj)
    unfold eval at h ⊢
    dsimp only at h ⊢
    split at h
    · rename_i v w hv hw
      obtain ⟨-, hsettle⟩ := List.append_eq_nil_iff.1 h
      cases happly : v.apply op w with
      | ok x => rfl
      | error e =>
        rw [happly] at hsettle
        cases hsettle
    · rename_i hnone
      obtain ⟨hds, hes⟩ := List.append_eq_nil_iff.1 h
      obtain ⟨v, hv⟩ := Option.isSome_iff_exists.1 (hl hds)
      obtain ⟨w, hw⟩ := Option.isSome_iff_exists.1 (hr hes)
      exact absurd hw (hnone v w hv)

end Term

end Linkage
