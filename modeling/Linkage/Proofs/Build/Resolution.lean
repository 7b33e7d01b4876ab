import Linkage.Proofs.Build.Reports
import Mathlib.Data.List.Forall2

/-!
# Linkage.Proofs.Build.Resolution

Name resolution answers for every path, once.

* `Declarations.occurrences` — every path that is looked up, with where it stands.
* `Contents.Answer` — what is to be said about one of them, in terms of what there is to find. It is
  one thing only (`Answer.unique`).
* `answer_answer?` — that is what looking it up gives.
* `filter_resolveTypes`, `filter_resolveConsts` — so the passes say these answers and no others, but
  for what evaluation cannot compute.
* `compile_resolution` — and so does a compile.
-/

namespace Linkage

/-! ## Occurrences -/

inductive Position where
  | type
  | constant

/-- A path in a source unit. -/
structure Occurrence where
  unit : Nat
  position : Position
  path : Script.Path

/-- The fields that do not repeat the name of a field before them. -/
def Script.firstFields : List Script.FieldDecl → List Script.FieldDecl
  | [] => []
  | f :: fs => f :: (firstFields fs).filter (·.name.name != f.name.name)

/-- The base and the types of the fields. A field with a repeated name is not looked into. -/
def Script.TypeDecl.lookups (t : Script.TypeDecl) : List Script.Path :=
  t.base.toList ++ (firstFields t.fields).map (·.type)

def Declarations.occurrences (d : Declarations) : List Occurrence :=
  (d.types.flatMap fun t => t.decl.lookups.map (⟨t.unit, .type, ·⟩)) ++
    d.constants.flatMap fun c => c.decl.value.paths.map (⟨c.unit, .constant, ·⟩)

namespace Contents

/-- The path leads to something that can stand in its position. -/
def Finds (d : Contents) : Position → Script.Path → Prop
  | .type, p => ∃ r, d.NamesType p r
  | .constant, p => (∃ c, d.NamesOwn p c) ∨ ∃ m c, d.NamesImported p m c

/-- The path leads into a module that is not there. -/
def Astray (d : Contents) (p : Script.Path) (q : Script.Ident) : Prop :=
  p.qualifier = some q ∧ q.name ≠ d.module ∧ ∀ r ∈ d.snapshot.references, r.name ≠ q.name

/-- The problem with a path to something that does not exist. -/
def missing (p : Script.Path) : Position → Problem
  | .type => .unknownType (p.qualifier.map (·.name)) p.name.name
  | .constant => .unknownConstant (p.qualifier.map (·.name)) p.name.name

/-- What is to be said about a path. -/
inductive Answer (d : Contents) (o : Occurrence) : Option Diagnostic → Prop where
  | found : d.Finds o.position o.path → Answer d o none
  | noModule {q : Script.Ident} :
      d.Astray o.path q →
      Answer d o (some ((Problem.unresolvedModule q.name).located o.unit q.span))
  | unknown :
      (∀ q, ¬ d.Astray o.path q) → ¬ d.Finds o.position o.path →
      Answer d o (some ((missing o.path o.position).located o.unit o.path.span))

/--
What evaluation says about a path that has been found: the constant that it leads to cannot be
computed from the snapshot.
-/
def Unevaluable (d : Contents) (o : Occurrence) (x : Diagnostic) : Prop :=
  o.position = .constant ∧ ∃ m c, d.NamesImported o.path m c ∧
    d.snapshot.constValue? m c = none ∧
    x = (Problem.notEvaluable m c.name).located o.unit o.path.span

end Contents

theorem Script.Expr.mem_paths_of_mem_nodes {e : Script.Expr} {p : Script.Path}
    (hp : .path p ∈ e.nodes) : p ∈ e.paths := by
  induction e with
  | literal v span => cases List.mem_singleton.1 hp
  | path q =>
    cases List.mem_singleton.1 hp
    exact List.mem_singleton_self _
  | negate e span ih =>
    rcases List.mem_append.1 hp with hp | hp
    · exact ih hp
    · cases List.mem_singleton.1 hp
  | binary op l r span ihl ihr =>
    rcases List.mem_append.1 hp with hp | hp
    · exact List.mem_append.2 ((List.mem_append.1 hp).imp ihl ihr)
    · cases List.mem_singleton.1 hp

theorem Snapshot.get?_eq_none {s : Snapshot} {n : String} :
    s.get? n = none ↔ ∀ r ∈ s.references, r.name ≠ n := by
  simp [Snapshot.get?, List.find?_eq_none]

namespace Contents

variable {d : Contents} {o : Occurrence} {p : Script.Path} {q : Script.Ident}

theorem Astray.get?_eq_none (h : d.Astray p q) : d.snapshot.get? q.name = none :=
  Snapshot.get?_eq_none.2 h.2.2

theorem Astray.not_finds (h : d.Astray p q) (position : Position) : ¬ d.Finds position p := by
  have hget := h.get?_eq_none
  obtain ⟨hqual, hne, -⟩ := h
  cases position with
  | type =>
    rintro ⟨r, hr⟩
    cases hr with
    | builtin _ => cases hqual
    | own _ _ => cases hqual
    | self hm _ _ =>
      cases hqual
      exact hne hm
    | imported _ ht =>
      cases hqual
      rw [Snapshot.type?, hget] at ht
      cases ht
  | constant =>
    rintro (⟨c, hl, -, -⟩ | ⟨m, c, -, ⟨q', hq', rfl⟩, hc⟩)
    · exact hne (hl q hqual)
    · obtain rfl := Option.some_inj.1 (hqual.symm.trans hq')
      rw [Snapshot.const?, hget] at hc
      cases hc

/-- There is only one thing to be said about a path. -/
theorem Answer.unique {x y : Option Diagnostic} (hx : d.Answer o x) (hy : d.Answer o y) :
    x = y := by
  cases hx with
  | found hf =>
    cases hy with
    | found _ => rfl
    | noModule ha => exact absurd hf (ha.not_finds _)
    | unknown _ hn => exact absurd hf hn
  | noModule ha =>
    cases hy with
    | found hf => exact absurd hf (ha.not_finds _)
    | noModule hb =>
      obtain rfl := Option.some_inj.1 (ha.1.symm.trans hb.1)
      rfl
    | unknown hn _ => exact absurd ha (hn _)
  | unknown hn hnot =>
    cases hy with
    | found hf => exact absurd hf hnot
    | noModule ha => exact absurd ha (hn _)
    | unknown _ _ => rfl

end Contents

/-! ## Telling lookup from evaluation

Both use the code of an unknown constant, but only a message of evaluation starts with this letter.
-/

theorem missing_message (p : Script.Path) (position : Position) :
    (Contents.missing p position).message.toList.head? ≠ some 'c' := by
  obtain ⟨qualifier, name⟩ := p
  cases position <;> cases qualifier
  case type.none =>
    show ("unknown type `" ++ name.name ++ "`").toList.head? ≠ _
    simp
  case type.some q =>
    show ("module `" ++ q.name ++ "` has no type `" ++ name.name ++ "`").toList.head? ≠ _
    simp
  case constant.none =>
    show ("unknown constant `" ++ name.name ++ "`").toList.head? ≠ _
    simp
  case constant.some q =>
    show ("module `" ++ q.name ++ "` has no constant `" ++ name.name ++ "`").toList.head? ≠ _
    simp

namespace Contents

variable {d : Contents} {o o' : Occurrence} {x : Diagnostic}

theorem Answer.message (h : d.Answer o (some x)) : x.message.toList.head? ≠ some 'c' := by
  cases h with
  | @noModule q _ =>
    show ("module `" ++ q.name ++ "` is not available as a reference").toList.head? ≠ _
    simp
  | unknown _ _ => exact missing_message o.path o.position

theorem Unevaluable.message (h : d.Unevaluable o x) : x.message.toList.head? = some 'c' := by
  obtain ⟨-, m, c, -, -, rfl⟩ := h
  show ("constant `" ++ m ++ "." ++ c.name ++
    "` cannot be evaluated at compile time").toList.head? = _
  simp

theorem Answer.not_unevaluable (h : d.Answer o (some x)) : ¬ d.Unevaluable o' x :=
  fun hx => h.message hx.message

end Contents

/-! ## What registration keeps -/

namespace Declarations

variable {module : String} {snapshot : Snapshot}

theorem namesSound_add {d : Declarations}
    (h : (Scope.contents ⟨module, snapshot, d⟩).NamesSound) (unit : Nat) (item : Script.Item) :
    (Scope.contents ⟨module, snapshot, (d.add unit item).1⟩).NamesSound := by
  have hnew {names : List String} {n : String} {found : Option Nat}
      (hfound : found.isSome = true ↔ n ∈ names) (hnone : ¬ found.isSome = true)
      (hnames : names.Nodup) : (names ++ [n]).Nodup :=
    nodup_snoc hnames fun hn => hnone (hfound.2 hn)
  cases item with
  | type t =>
    unfold add addType
    dsimp only
    split
    · exact h
    · rename_i hbuiltin
      split
      · exact h
      · rename_i hnone
        have htypes := hnew (d.isSome_typeId? _) hnone (Scope.nodup_typeNames h)
        refine ⟨?_, ?_, h.consts⟩
        · simpa [Scope.contents, typeNames, List.map_append, Function.comp_def] using htypes
        · show ∀ u ∈ List.map _ (d.types ++ [_]), _
          rw [List.map_append, List.forall_mem_append]
          exact ⟨h.notBuiltin,
            List.forall_mem_singleton.2 (Option.not_isSome_iff_eq_none.1 hbuiltin)⟩
  | const c =>
    unfold add addConst
    dsimp only
    split
    · exact h
    · rename_i hnone
      have hconsts := hnew (d.isSome_constId? _) hnone (Scope.nodup_constNames h)
      refine ⟨h.types, h.notBuiltin, ?_⟩
      simpa [Scope.contents, constNames, List.map_append, Function.comp_def] using hconsts

theorem namesSound_addAll (items : List (Nat × Script.Item)) : ∀ d : Declarations,
    (Scope.contents ⟨module, snapshot, d⟩).NamesSound →
      (Scope.contents ⟨module, snapshot, (d.addAll items).1⟩).NamesSound := by
  induction items with
  | nil => exact fun _ h => h
  | cons i items ih => exact fun d h => ih _ (namesSound_add h i.1 i.2)

/-- Whatever the sources declare, the names of what is kept are sound. -/
theorem namesSound_ofUnits (units : List (Nat × Script)) :
    (Scope.contents ⟨module, snapshot, (ofUnits units).1⟩).NamesSound :=
  namesSound_addAll _ .empty ⟨List.nodup_nil, fun _ h => absurd h List.not_mem_nil, List.nodup_nil⟩

end Declarations

/-! ## Looking up one path -/

namespace Scope

variable {s : Scope} {p : Script.Path} {q : Script.Ident}

theorem astray_iff : s.contents.Astray p q ↔ s.Unresolved p q := by
  rw [Unresolved, outward?_eq_some, Snapshot.get?_eq_none, and_assoc]
  rfl

theorem typeRef_of_astray (h : s.contents.Astray p q) :
    (s.typeRef p).found = .error (.unresolvedModule q.name, q.span) := by
  obtain ⟨hq, hget⟩ := astray_iff.1 h
  simp only [typeRef, hq, external, hget, Lookup.andThen]

theorem constTarget_of_astray (h : s.contents.Astray p q) :
    (s.constTarget p).found = .error (.unresolvedModule q.name, q.span) := by
  obtain ⟨hq, hget⟩ := astray_iff.1 h
  simp only [constTarget, hq, external, hget, Lookup.andThen]

theorem typeRef_of_not_astray (h : ∀ q, ¬ s.contents.Astray p q) {x : Problem × Span}
    (hx : (s.typeRef p).found = .error x) : x = (Contents.missing p .type, p.span) := by
  rcases typeRef_eq_error hx with ⟨q, hq, -⟩ | ⟨-, rfl⟩
  · exact absurd (astray_iff.2 hq) (h q)
  · rfl

theorem constTarget_of_not_astray (h : ∀ q, ¬ s.contents.Astray p q) {x : Problem × Span}
    (hx : (s.constTarget p).found = .error x) : x = (Contents.missing p .constant, p.span) := by
  rcases constTarget_eq_error hx with ⟨q, hq, -⟩ | ⟨-, rfl⟩
  · exact absurd (astray_iff.2 hq) (h q)
  · rfl

theorem finds_type_iff (h : s.contents.NamesSound) :
    s.contents.Finds .type p ↔ ∃ r, (s.typeRef p).found = .ok r :=
  exists_congr fun _ => (typeRef_eq_ok h).symm

theorem finds_constant_iff (h : s.contents.NamesSound) :
    s.contents.Finds .constant p ↔ ∃ target, (s.constTarget p).found = .ok target := by
  have hpath := pathsFound_iff h (e := .path p)
  rw [PathsFound, Script.Expr.paths, List.forall_mem_singleton, List.forall_mem_singleton] at hpath
  exact hpath.symm

/-- What looking up the path says. -/
def answer? (s : Scope) (o : Occurrence) : Option Diagnostic :=
  match o.position with
  | .type => s.lostType? o.unit o.path
  | .constant => s.lost? o.unit o.path

theorem answer?_of_finds (h : s.contents.NamesSound) {o : Occurrence}
    (hf : s.contents.Finds o.position o.path) : s.answer? o = none := by
  obtain ⟨unit, position, p⟩ := o
  cases position with
  | type =>
    obtain ⟨r, hr⟩ := (finds_type_iff h).1 hf
    simp only [answer?, lostType?, hr]
  | constant =>
    obtain ⟨target, htarget⟩ := (finds_constant_iff h).1 hf
    simp only [answer?, lost?, htarget]

theorem answer?_of_astray {o : Occurrence} (ha : s.contents.Astray o.path q) :
    s.answer? o = some ((Problem.unresolvedModule q.name).located o.unit q.span) := by
  obtain ⟨unit, position, p⟩ := o
  cases position with
  | type => simp only [answer?, lostType?, typeRef_of_astray ha]
  | constant => simp only [answer?, lost?, constTarget_of_astray ha]

theorem answer?_of_missing (h : s.contents.NamesSound) {o : Occurrence}
    (ha : ∀ q, ¬ s.contents.Astray o.path q) (hn : ¬ s.contents.Finds o.position o.path) :
    s.answer? o =
      some ((Contents.missing o.path o.position).located o.unit o.path.span) := by
  obtain ⟨unit, position, p⟩ := o
  cases position with
  | type =>
    cases hr : (s.typeRef p).found with
    | ok r => exact absurd ((finds_type_iff h).2 ⟨r, hr⟩) hn
    | error x =>
      obtain rfl := typeRef_of_not_astray ha hr
      simp only [answer?, lostType?, hr]
  | constant =>
    cases hr : (s.constTarget p).found with
    | ok target => exact absurd ((finds_constant_iff h).2 ⟨target, hr⟩) hn
    | error x =>
      obtain rfl := constTarget_of_not_astray ha hr
      simp only [answer?, lost?, hr]

theorem answer_answer? (h : s.contents.NamesSound) (o : Occurrence) :
    s.contents.Answer o (s.answer? o) := by
  by_cases hf : s.contents.Finds o.position o.path
  · rw [answer?_of_finds h hf]
    exact .found hf
  · by_cases ha : ∃ q, s.contents.Astray o.path q
    · obtain ⟨q, ha⟩ := ha
      rw [answer?_of_astray ha]
      exact .noModule ha
    · have ha := not_exists.1 ha
      rw [answer?_of_missing h ha hf]
      exact .unknown ha hf

/-! ## Looking up all paths -/

theorem isResolution_of_answer? (h : s.contents.NamesSound) {o : Occurrence} {x : Diagnostic}
    (hx : s.answer? o = some x) : x.code.isResolution = true := by
  have hanswer := s.answer_answer? h o
  rw [hx] at hanswer
  cases hanswer with
  | noModule _ => rfl
  | unknown _ _ => cases o.position <;> rfl

theorem filter_answers (h : s.contents.NamesSound) {ds : List Diagnostic}
    (hds : ∀ x ∈ ds, ∃ o, s.answer? o = some x) : ds.filter (·.code.isResolution) = ds := by
  refine List.filter_eq_self.2 fun x hx => ?_
  obtain ⟨o, ho⟩ := hds x hx
  exact isResolution_of_answer? h ho

theorem filter_lostType? (h : s.contents.NamesSound) (unit : Nat) (p : Script.Path) :
    (s.lostType? unit p).toList.filter (·.code.isResolution) = (s.lostType? unit p).toList :=
  filter_answers h fun _ hx => ⟨⟨unit, .type, p⟩, Option.mem_toList.1 hx⟩

/-- What is said about a base that has been found is no matter of names. -/
theorem resolveBase_snd (unit : Nat) {t : Script.TypeDecl} (hp : t.base = some p) :
    ∃ others, Says Problem.Other others ∧
      (s.resolveBase unit t).2 = (s.lostType? unit p).toList ++ others := by
  unfold resolveBase lostType?
  simp only [hp]
  cases (s.typeRef p).found with
  | error x => exact ⟨[], says_nil, rfl⟩
  | ok base =>
    dsimp only
    split
    · rename_i problem hrefusal
      exact ⟨_, says_other (baseRefusal?_other hrefusal) unit p.span, rfl⟩
    · exact ⟨[], says_nil, rfl⟩

theorem filter_resolveBase (h : s.contents.NamesSound) (unit : Nat) (t : Script.TypeDecl) :
    (s.resolveBase unit t).2.filter (·.code.isResolution) =
      t.base.toList.filterMap (s.lostType? unit) := by
  cases hb : t.base with
  | none => simp only [resolveBase, hb, List.filter_nil, Option.toList_none, List.filterMap_nil]
  | some p =>
    obtain ⟨others, hothers, hsnd⟩ := s.resolveBase_snd unit hb
    rw [hsnd, List.filter_append, filter_lostType? h, hothers.filter_eq_nil, List.append_nil]
    cases hl : s.lostType? unit p <;> simp [hl]

theorem resolveFields_cons_snd (unit : Nat) (type : String) (seen : List String)
    (f : Script.FieldDecl) (fs : List Script.FieldDecl) (hf : f.name.name ∉ seen) :
    (s.resolveFields unit type seen (f :: fs)).2 =
      (s.lostType? unit f.type).toList ++
        (s.resolveFields unit type (f.name.name :: seen) fs).2 := by
  have hseen : seen.contains f.name.name = false := by simpa using hf
  simp only [resolveFields, hseen, lostType?]
  cases (s.typeRef f.type).found <;> rfl

theorem filter_resolveFields (h : s.contents.NamesSound) (unit : Nat) (type : String)
    (fs : List Script.FieldDecl) : ∀ seen : List String,
      (s.resolveFields unit type seen fs).2.filter (·.code.isResolution) =
        ((Script.firstFields fs).filter (·.name.name ∉ seen)).filterMap
          fun f => s.lostType? unit f.type := by
  induction fs with
  | nil => exact fun _ => rfl
  | cons f fs ih =>
    intro seen
    rw [Script.firstFields]
    by_cases hf : f.name.name ∈ seen
    · -- The repetition is reported under a code of its own.
      have hrepeat : (s.resolveFields unit type seen (f :: fs)).2 =
          (Problem.duplicateField f.name.name type).located unit f.name.span ::
            (s.resolveFields unit type seen fs).2 := by
        simp only [resolveFields, List.contains_iff_mem.2 hf, if_true]
      have hrest (g : Script.FieldDecl) :
          (decide (g.name.name ∉ seen) && g.name.name != f.name.name) =
            decide (g.name.name ∉ seen) := by
        rw [Bool.and_eq_left_iff_imp]
        intro hg
        exact bne_iff_ne.2 fun hgf => of_decide_eq_true hg (hgf ▸ hf)
      rw [hrepeat, List.filter_cons_of_neg (by simp [Problem.located, Problem.code,
        Diagnostic.Code.isResolution]), ih, List.filter_cons_of_neg (by simpa using hf),
        List.filter_filter]
      simp only [hrest]
    · have hrest (g : Script.FieldDecl) :
          (decide (g.name.name ∉ seen) && g.name.name != f.name.name) =
            decide (g.name.name ∉ f.name.name :: seen) := by
        rw [Bool.eq_iff_iff]
        simp [and_comm]
      rw [resolveFields_cons_snd _ _ _ _ _ hf, List.filter_append, filter_lostType? h, ih,
        List.filter_cons_of_pos (by simpa using hf), List.filter_filter]
      simp only [hrest]
      cases hl : s.lostType? unit f.type <;> simp [hl]

theorem filter_resolveType (h : s.contents.NamesSound) (t : Declared Script.TypeDecl) :
    (s.resolveType t).2.filter (·.code.isResolution) =
      (t.decl.lookups.map (⟨t.unit, .type, ·⟩)).filterMap s.answer? := by
  have hfields := filter_resolveFields h t.unit t.decl.name.name t.decl.fields []
  have hall : (Script.firstFields t.decl.fields).filter (·.name.name ∉ []) =
      Script.firstFields t.decl.fields :=
    List.filter_eq_self.2 fun _ _ => decide_eq_true List.not_mem_nil
  rw [hall] at hfields
  rw [resolveType, List.filter_append, filter_resolveBase h, hfields, Script.TypeDecl.lookups,
    List.map_append, List.filterMap_append, List.filterMap_map, List.map_map, List.filterMap_map]
  rfl

theorem filter_resolveTypes (h : s.contents.NamesSound) :
    s.resolveTypes.2.filter (·.code.isResolution) =
      (s.decls.types.flatMap fun t =>
        t.decl.lookups.map (⟨t.unit, .type, ·⟩)).filterMap s.answer? := by
  have hcycles : Says Problem.Other
      ((s.baseGraph s.resolvedTypes).cycles.flatMap (s.reportBaseCycle s.resolvedTypes)) :=
    says_flatMap fun cycle _ => says_reportBaseCycle _ cycle
  have hshadowing : Says Problem.Other s.shadowing :=
    s.says_shadowing.imp fun _ ⟨_, _, _, hp⟩ => hp ▸ rfl
  rw [resolveTypes_snd, List.filter_append, List.filter_append, hcycles.filter_eq_nil,
    hshadowing.filter_eq_nil, List.append_nil, List.append_nil, List.filter_flatMap,
    List.filterMap_flatMap]
  simp only [filter_resolveType h]

theorem filter_resolveConsts (h : s.contents.NamesSound) :
    s.resolveConsts.2.filter (·.code.isResolution) =
      (s.decls.constants.flatMap fun c =>
        c.decl.value.paths.map (⟨c.unit, .constant, ·⟩)).filterMap s.answer? ++
          s.evaluated.2.filter (·.code.isResolution) := by
  have hcycles : Says Problem.Other
      ((constGraph s.terms).cycles.flatMap s.reportConstCycle) :=
    says_flatMap fun cycle _ => says_reportConstCycle cycle
  have hlost : (s.decls.constants.flatMap fun c => (s.resolveExpr c.unit c.decl.value).2) =
      (s.decls.constants.flatMap fun c =>
        c.decl.value.paths.map (⟨c.unit, .constant, ·⟩)).filterMap s.answer? := by
    simp only [resolveExpr_snd, List.filterMap_flatMap, List.filterMap_map]
    rfl
  have hanswers : ∀ x ∈ (s.decls.constants.flatMap fun c =>
      c.decl.value.paths.map (⟨c.unit, .constant, ·⟩)).filterMap s.answer?,
      ∃ o, s.answer? o = some x := by
    intro x hx
    obtain ⟨o, -, ho⟩ := List.mem_filterMap.1 hx
    exact ⟨o, ho⟩
  rw [resolveConsts_eq, List.filter_append, List.filter_append, hcycles.filter_eq_nil,
    List.append_nil, hlost, filter_answers h hanswers]

theorem unevaluable_of_mem {x : Diagnostic}
    (hx : x ∈ s.evaluated.2.filter (·.code.isResolution)) :
    ∃ o ∈ s.decls.occurrences, s.contents.Unevaluable o x := by
  obtain ⟨hmem, hcode⟩ := List.mem_filter.1 hx
  obtain ⟨c, hc, -, node, hnode, hfault⟩ := fault_of_mem_evaluated hmem
  rcases fault?_cases hfault with ⟨e, span, rfl⟩ | ⟨p, m, k, rfl, htarget, hvalue, rfl⟩
  · cases e <;> cases hcode
  · refine ⟨⟨c.unit, .constant, p⟩, List.mem_append_right _ (List.mem_flatMap.2 ⟨c, hc, ?_⟩), rfl,
      m, k, constTarget_eq_imported.1 htarget, hvalue, rfl⟩
    exact List.mem_map_of_mem (Script.Expr.mem_paths_of_mem_nodes hnode)

end Scope

/-! ## All passes -/

/-- The text of a unit is no matter of names. -/
theorem filter_readUnits (units : List (Source × Nat)) :
    (readUnits units).2.filter (·.code.isResolution) = [] := by
  refine List.filter_eq_nil_iff.2 fun d hd => ?_
  rcases code_of_mem_readUnits d hd with hcode | hcode <;> rw [hcode] <;> exact Bool.false_ne_true

/--
For each path in the declarations that registration keeps there is one answer: nothing if it leads
somewhere, and else a diagnostic about the module or about the path. In any order these are the
diagnostics with the codes of name resolution, but for those of evaluation about constants of other
modules that were found and have no value.
-/
theorem compile_resolution (options : Options) (module : String) (sources : List Source)
    (snapshot : Snapshot) :
    let kept := (Declarations.ofUnits (readUnits sources.zipIdx).1).1
    let d := Scope.contents ⟨module, snapshot, kept⟩
    ∃ answers unevaluable, List.Forall₂ d.Answer kept.occurrences answers ∧
      ((compile options module sources snapshot).diagnostics.filter
        (·.code.isResolution)).Perm (answers.reduceOption ++ unevaluable) ∧
      answers.reduceOption.Disjoint unevaluable ∧
      ∀ x ∈ unevaluable, ∃ o ∈ kept.occurrences, d.Unevaluable o x := by
  intro kept d
  let s : Scope := ⟨module, snapshot, kept⟩
  -- The names are sound even if the sources are not: registration has dropped what clashes.
  have hsound : s.contents.NamesSound := Declarations.namesSound_ofUnits _
  have hregistration : Says Problem.Other (Declarations.ofUnits (readUnits sources.zipIdx).1).2 :=
    (Declarations.says_addAll _ .empty).imp fun _ h => h.other
  have hsemantic : (Program.semantic module sources snapshot).filter (·.code.isResolution) =
      kept.occurrences.filterMap s.answer? ++ s.evaluated.2.filter (·.code.isResolution) := by
    show List.filter _ (_ ++ s.resolveTypes.2 ++ s.resolveConsts.2) = _
    rw [List.filter_append, List.filter_append, hregistration.filter_eq_nil, List.nil_append,
      Scope.filter_resolveTypes hsound, Scope.filter_resolveConsts hsound, ← List.append_assoc,
      ← List.filterMap_append]
    rfl
  have hanswers : (kept.occurrences.map s.answer?).reduceOption =
      kept.occurrences.filterMap s.answer? := List.filterMap_map
  refine ⟨kept.occurrences.map s.answer?, s.evaluated.2.filter (·.code.isResolution), ?_, ?_, ?_,
    fun x hx => Scope.unevaluable_of_mem hx⟩
  · rw [List.forall₂_map_right_iff, List.forall₂_same]
    exact fun o _ => Scope.answer_answer? hsound o
  · have hsorted := (List.mergeSort_perm (Program.semantic module sources snapshot)
      Diagnostic.notAfter).filter (·.code.isResolution)
    rw [hsemantic] at hsorted
    rwa [diagnostics_compile, Program.diagnostics_ofSources, List.filter_append, filter_readUnits,
      List.nil_append, hanswers]
  · rw [hanswers]
    intro x hx hy
    obtain ⟨o, -, ho⟩ := List.mem_filterMap.1 hx
    obtain ⟨o', -, hx⟩ := Scope.unevaluable_of_mem hy
    have hanswer := Scope.answer_answer? hsound o
    rw [ho] at hanswer
    exact hanswer.not_unevaluable hx

end Linkage
