import Linkage.Proofs.Build.Acceptance
import Linkage.Proofs.Build.RootCauses

/-!
# Linkage.Proofs.Build.Reports

What the passes of a compile say, as problems at places.

* `says_resolveTypes`, `says_resolveConsts` — all of it has a place.
* `Code.isResolution` — the codes of name resolution. Of what else is said only evaluation uses one
  of them (`fault?_cases`).
-/

namespace Linkage

/-- The codes for paths that lead nowhere. -/
def Diagnostic.Code.isResolution : Code → Bool
  | .unresolvedModule => true
  | .unknownType => true
  | .unknownConstant => true
  | _ => false

/-- A problem that is no matter of names. -/
def Problem.Other (p : Problem) : Prop := p.code.isResolution = false

theorem says_other {p : Problem} (h : p.code.isResolution = false) (unit : Nat) (span : Span) :
    Says Problem.Other [p.located unit span] :=
  says_singleton h unit span

theorem Says.filter_eq_nil {ds : List Diagnostic} (h : Says Problem.Other ds) :
    ds.filter (·.code.isResolution) = [] := by
  refine List.filter_eq_nil_iff.2 fun d hd => ?_
  obtain ⟨p, unit, span, hp, rfl⟩ := h d hd
  exact Bool.eq_false_iff.1 hp

theorem Problem.OfDeclaration.other {p : Problem} (h : p.OfDeclaration) : p.Other := by
  cases h <;> rfl

namespace Scope

variable {s : Scope}

/-! ## Types -/

/-- What is wrong with a path in type position that leads nowhere. -/
def lostType? (s : Scope) (unit : Nat) (p : Script.Path) : Option Diagnostic :=
  match (s.typeRef p).found with
  | .ok _ => none
  | .error (problem, span) => some (problem.located unit span)

theorem baseRefusal?_other {name : String} {path : Script.Path} {r : TypeRef} {problem : Problem}
    (h : s.baseRefusal? name path r = some problem) : problem.Other := by
  rcases baseRefusal?_cases h with ⟨k, rfl⟩ | rfl <;> rfl

/-- What can be wrong with the base and the fields of a type, and at which span. -/
inductive Finding (s : Scope) (t : Script.TypeDecl) : Problem → Span → Prop where
  | lost {p : Script.Path} {problem : Problem} {span : Span} :
      t.base = some p ∨ (∃ f ∈ t.fields, f.type = p) → (s.typeRef p).found = .error (problem, span) →
      Finding s t problem span
  | refused {p : Script.Path} {base : TypeRef} {problem : Problem} :
      t.base = some p → s.baseRefusal? t.name.name p base = some problem →
      Finding s t problem p.span
  | repeated {f : Script.FieldDecl} :
      f ∈ t.fields → Finding s t (.duplicateField f.name.name t.name.name) f.name.span

theorem finding_of_mem_resolveBase {unit : Nat} {t : Script.TypeDecl} {d : Diagnostic}
    (hd : d ∈ (s.resolveBase unit t).2) :
    ∃ problem span, s.Finding t problem span ∧ d = problem.located unit span := by
  unfold resolveBase at hd
  split at hd
  · cases hd
  · rename_i p hp
    split at hd
    · rename_i problem span herror
      exact ⟨problem, span, .lost (.inl hp) herror, List.mem_singleton.1 hd⟩
    · split at hd
      · rename_i problem hrefusal
        exact ⟨problem, p.span, .refused hp hrefusal, List.mem_singleton.1 hd⟩
      · cases hd

theorem finding_of_mem_resolveFields {unit : Nat} {t : Script.TypeDecl} {d : Diagnostic}
    {fs : List Script.FieldDecl} (hfs : ∀ f ∈ fs, f ∈ t.fields) {seen : List String}
    (hd : d ∈ (s.resolveFields unit t.name.name seen fs).2) :
    ∃ problem span, s.Finding t problem span ∧ d = problem.located unit span := by
  induction fs generalizing seen with
  | nil => cases hd
  | cons f fs ih =>
    have hf := hfs f List.mem_cons_self
    have hrest := @ih fun g hg => hfs g (List.mem_cons_of_mem f hg)
    unfold resolveFields at hd
    dsimp only at hd
    split at hd
    · rcases List.mem_cons.1 hd with rfl | hd
      · exact ⟨_, _, .repeated hf, rfl⟩
      · exact hrest hd
    · split at hd
      · exact hrest hd
      · rename_i problem span herror
        rcases List.mem_cons.1 hd with rfl | hd
        · exact ⟨problem, span, .lost (.inr ⟨f, hf, rfl⟩) herror, rfl⟩
        · exact hrest hd

theorem finding_of_mem_resolveType {t : Declared Script.TypeDecl} {d : Diagnostic}
    (hd : d ∈ (s.resolveType t).2) :
    ∃ problem span, s.Finding t.decl problem span ∧ d = problem.located t.unit span :=
  (List.mem_append.1 hd).elim finding_of_mem_resolveBase
    (finding_of_mem_resolveFields fun _ hf => hf)

theorem says_reportBaseCycle (types : List ResolvedType) (cycle : List Nat) :
    Says Problem.Other (s.reportBaseCycle types cycle) := by
  unfold reportBaseCycle
  split
  · exact says_nil
  · split
    · exact says_nil
    · exact says_other rfl _ _

theorem says_resolveTypes (s : Scope) : Says (fun _ => True) s.resolveTypes.2 := by
  rw [resolveTypes_snd, says_append, says_append]
  refine ⟨⟨says_flatMap fun t _ => ?_, ?_⟩, s.says_shadowing.imp fun _ _ => trivial⟩
  · exact (says_resolveType t).imp fun _ _ => trivial
  · exact (says_flatMap fun cycle _ => says_reportBaseCycle _ cycle).imp fun _ _ => trivial

/-! ## Constants -/

theorem says_reportConstCycle (cycle : List Nat) :
    Says Problem.Other (s.reportConstCycle cycle) := by
  unfold reportConstCycle
  split
  · exact says_nil
  · split
    · exact says_nil
    · exact says_other rfl _ _

theorem says_lost (unit : Nat) (ps : List Script.Path) :
    Says (fun _ => True) (ps.filterMap (s.lost? unit)) := by
  intro d hd
  obtain ⟨p, -, hp⟩ := List.mem_filterMap.1 hd
  unfold lost? at hp
  split at hp
  · cases hp
  · cases hp
    exact ⟨_, _, _, trivial, rfl⟩

/-- Evaluation only says what is wrong with nodes of initializers whose paths lead somewhere. -/
theorem fault_of_mem_evaluated {d : Diagnostic} (hd : d ∈ s.evaluated.2) :
    ∃ c ∈ s.decls.constants, s.PathsFound c.decl.value ∧
      ∃ node ∈ c.decl.value.nodes, s.fault? s.value? c.unit node = some d := by
  rw [s.settled_evaluated.diagnostics, ← value?_eq] at hd
  obtain ⟨id, hid, hd⟩ := List.mem_flatMap.1 hd
  have hlt := List.mem_range.1
    ((Graph.dependencyOrder_perm s.inRange_constGraph).mem_iff.1 hid)
  rw [size_constGraph] at hlt
  have hc := List.getElem?_eq_getElem hlt
  by_cases hsound : s.PathsFound s.decls.constants[id].decl.value ∧ ¬ s.OnCycle id
  · rw [outcome_of_found hc hsound.1 hsound.2] at hd
    exact ⟨_, List.getElem_mem hlt, hsound.1, List.mem_filterMap.1 hd⟩
  · have hbroken : ¬ s.PathsFound s.decls.constants[id].decl.value ∨ s.OnCycle id := by
      rwa [not_and_or, not_not] at hsound
    rw [outcome_of_broken hc hbroken] at hd
    cases hd

/-- A node is at fault when its operator fails or when it is a path to what has no value. -/
theorem fault?_cases {values : Nat → Option Value} {unit : Nat} {node : Script.Expr}
    {d : Diagnostic} (h : s.fault? values unit node = some d) :
    (∃ x span, d = (Problem.arithmetic x).located unit span) ∨
      ∃ p m c, node = .path p ∧ (s.constTarget p).found = .ok (.imported m c) ∧
        s.snapshot.constValue? m c = none ∧
        d = (Problem.notEvaluable m c.name).located unit p.span := by
  unfold fault? at h
  split at h
  · cases h
  · rename_i p
    split at h
    · rename_i m c htarget
      split at h
      · rename_i hvalue
        cases h
        exact .inr ⟨p, m, c, rfl, htarget, hvalue, rfl⟩
      · cases h
    · cases h
  · split at h
    · cases h
    · split at h
      · cases h
      · cases h
        exact .inl ⟨_, _, rfl⟩
  · split at h
    · split at h
      · cases h
      · cases h
        exact .inl ⟨_, _, rfl⟩
    · cases h

theorem says_resolveConsts (s : Scope) : Says (fun _ => True) s.resolveConsts.2 := by
  rw [resolveConsts_eq, says_append, says_append]
  refine ⟨⟨says_flatMap fun c _ => ?_, ?_⟩, fun d hd => ?_⟩
  · rw [resolveExpr_snd]
    exact says_lost _ _
  · exact (says_flatMap fun cycle _ => says_reportConstCycle cycle).imp fun _ _ => trivial
  · obtain ⟨c, -, -, node, -, hfault⟩ := fault_of_mem_evaluated hd
    rcases fault?_cases hfault with ⟨x, span, rfl⟩ | ⟨p, m, k, -, -, -, rfl⟩
    · exact ⟨_, _, _, trivial, rfl⟩
    · exact ⟨_, _, _, trivial, rfl⟩

end Scope

/-! ## All passes -/

theorem diagnostics_compile (options : Options) (module : String) (sources : List Source)
    (snapshot : Snapshot) : (compile options module sources snapshot).diagnostics =
      (Program.ofSources module sources snapshot).diagnostics := by
  unfold compile
  dsimp only
  split <;> rfl

end Linkage
