import Linkage.Build.Types
import Linkage.Proofs.Build.Paths
import Linkage.Proofs.Build.Registration
import Linkage.Proofs.Graph

/-!
# Linkage.Proofs.Build.Typing

`noErrors_resolveTypes`: the pass over the types finds no error exactly if bases and fields are
sound and bases form no cycle.

A base that is refused is no base from there on, so the graph of the bases stands for `Extends`
once no base is refused: `represents_baseGraph`. Marks do not change bases and fields
(`unmarked_of_getElem?`), and among sound declarations there are none (`markedTypes_of_sound`).
-/

namespace Linkage
namespace Scope

variable {s : Scope}

/-! ## Bases -/

theorem baseRefusal?_eq_none {name : String} {path : Script.Path} {r : TypeRef} :
    s.baseRefusal? name path r = none ↔ s.contents.Extensible r := by
  cases r with
  | builtin k => simp [baseRefusal?, Contents.Extensible]
  | own n =>
    simp only [baseRefusal?, Contents.Extensible, contents, List.forall_mem_map]
    rw [ite_eq_right_iff]
    simp only [List.any_eq_true, Bool.and_eq_true, beq_iff_eq, reduceCtorEq, imp_false, not_exists,
      not_and, Bool.not_eq_true]
  | imported m n =>
    simp only [baseRefusal?, Contents.Extensible, contents]
    cases s.snapshot.type? m n with
    | none => simp
    | some t =>
      cases ht : t.modifiers.isSealed <;> simp [ht]

theorem baseRefusal?_cases {name : String} {path : Script.Path} {r : TypeRef} {problem : Problem}
    (h : s.baseRefusal? name path r = some problem) :
    (∃ k, problem = .builtinBase name k) ∨ problem = .sealedBase name path.text := by
  unfold baseRefusal? at h
  cases r with
  | builtin k =>
    cases h
    exact .inl ⟨k, rfl⟩
  | own n =>
    dsimp only at h
    split at h <;> cases h
    exact .inr rfl
  | imported m n =>
    dsimp only at h
    split at h
    · split at h <;> cases h
      exact .inr rfl
    · cases h

theorem says_resolveBase (unit : Nat) (t : Script.TypeDecl) :
    Says Problem.IsError (s.resolveBase unit t).2 := by
  unfold resolveBase
  split
  · exact says_nil
  · split
    · rename_i herror
      exact says_singleton (typeRef_error herror) unit _
    · split
      · rename_i problem hrefusal
        have herror : problem.IsError := by
          rcases baseRefusal?_cases hrefusal with ⟨k, rfl⟩ | rfl <;> rfl
        exact says_singleton herror unit _
      · exact says_nil

theorem resolveBase_eq_nil (h : s.contents.NamesSound) {unit : Nat} {t : Script.TypeDecl} :
    (s.resolveBase unit t).2 = [] ↔ s.contents.BaseSound t := by
  unfold resolveBase Contents.BaseSound
  cases hb : t.base with
  | none => simp
  | some path =>
    simp only [Option.some.injEq, forall_eq']
    cases hr : (s.typeRef path).found with
    | error e =>
      refine iff_of_false (fun he => nomatch he) ?_
      rintro ⟨r, hnames, -⟩
      rw [(typeRef_eq_ok h).2 hnames] at hr
      cases hr
    | ok r =>
      have hnames := (typeRef_eq_ok h).1 hr
      dsimp only
      cases hrefusal : s.baseRefusal? t.name.name path r with
      | some problem =>
        refine iff_of_false (fun he => nomatch he) ?_
        rintro ⟨r', hnames', hext⟩
        rw [(typeRef_eq_ok h).2 hnames'] at hr
        cases hr
        rw [baseRefusal?_eq_none.2 hext] at hrefusal
        cases hrefusal
      | none => exact iff_of_true rfl ⟨r, hnames, baseRefusal?_eq_none.1 hrefusal⟩

/-- A base that is not refused is what its path leads to. -/
theorem resolveBase_eq_some (h : s.contents.NamesSound) {unit : Nat} {t : Script.TypeDecl}
    (hs : s.contents.BaseSound t) {r : TypeRef} :
    (s.resolveBase unit t).1 = some r ↔ ∃ p, t.base = some p ∧ s.contents.NamesType p r := by
  unfold resolveBase
  cases hb : t.base with
  | none => simp
  | some path =>
    obtain ⟨r', hnames, hext⟩ := hs path hb
    have hr := (typeRef_eq_ok h).2 hnames
    simp only [hr, baseRefusal?_eq_none.2 hext, Option.some.injEq, exists_eq_left']
    rw [← typeRef_eq_ok h, hr, Except.ok.injEq]

/-! ## Fields -/

theorem says_resolveFields (unit : Nat) (type : String) (fs : List Script.FieldDecl) :
    ∀ seen, Says Problem.IsError (s.resolveFields unit type seen fs).2 := by
  induction fs with
  | nil => exact fun _ => says_nil
  | cons f fs ih =>
    intro seen
    unfold resolveFields
    dsimp only
    split
    · have hrepeat : (Problem.duplicateField f.name.name type).IsError := rfl
      exact says_append.2 ⟨says_singleton hrepeat unit f.name.span, ih seen⟩
    · split
      · exact ih _
      · rename_i herror
        exact says_append.2 ⟨says_singleton (typeRef_error herror) unit _, ih _⟩

theorem resolveFields_eq_nil (h : s.contents.NamesSound) {unit : Nat} {type : String}
    (fs : List Script.FieldDecl) : ∀ seen : List String,
      ((s.resolveFields unit type seen fs).2 = [] ↔
        ((fs.map (·.name.name)).Nodup ∧ ∀ n ∈ seen, n ∉ fs.map (·.name.name)) ∧
          ∀ f ∈ fs, ∃ r, s.contents.NamesType f.type r) := by
  induction fs with
  | nil => simp [resolveFields]
  | cons f fs ih =>
    intro seen
    unfold resolveFields
    dsimp only
    split
    · rename_i hseen
      refine iff_of_false (fun he => nomatch he) ?_
      rintro ⟨⟨-, hnot⟩, -⟩
      exact hnot _ (List.contains_iff_mem.1 hseen) List.mem_cons_self
    · rename_i hseen
      have hnew : f.name.name ∉ seen := fun hm => hseen (List.contains_iff_mem.2 hm)
      have hnames : ((fs.map (·.name.name)).Nodup ∧
          ∀ n ∈ f.name.name :: seen, n ∉ fs.map (·.name.name)) ↔
          (((f :: fs).map (·.name.name)).Nodup ∧
            ∀ n ∈ seen, n ∉ (f :: fs).map (·.name.name)) := by
        simp only [List.map_cons, List.nodup_cons, List.mem_cons, not_or]
        constructor
        · rintro ⟨hnodup, hrest⟩
          exact ⟨⟨hrest _ (.inl rfl), hnodup⟩,
            fun n hn => ⟨fun he => hnew (he ▸ hn), hrest n (.inr hn)⟩⟩
        · rintro ⟨⟨hf, hnodup⟩, hrest⟩
          exact ⟨hnodup, fun n hn => hn.elim (fun he => he ▸ hf) fun hn => (hrest n hn).2⟩
      rw [List.forall_mem_cons, ← hnames]
      cases hr : (s.typeRef f.type).found with
      | ok r =>
        dsimp only
        rw [ih]
        exact and_congr_right fun _ =>
          ⟨fun hrest => ⟨⟨r, (typeRef_eq_ok h).1 hr⟩, hrest⟩, And.right⟩
      | error e =>
        refine iff_of_false (fun he => nomatch he) ?_
        rintro ⟨-, ⟨r, hnamed⟩, -⟩
        rw [(typeRef_eq_ok h).2 hnamed] at hr
        cases hr

theorem says_resolveType (t : Declared Script.TypeDecl) :
    Says Problem.IsError (s.resolveType t).2 :=
  says_append.2 ⟨says_resolveBase t.unit t.decl, says_resolveFields _ _ _ _⟩

theorem resolveType_eq_nil (h : s.contents.NamesSound) {t : Declared Script.TypeDecl} :
    (s.resolveType t).2 = [] ↔ s.contents.BaseSound t.decl ∧ s.contents.FieldsSound t.decl := by
  show (s.resolveBase t.unit t.decl).2 ++ _ = [] ↔ _
  rw [List.append_eq_nil_iff, resolveBase_eq_nil h, resolveFields_eq_nil h]
  simp only [Contents.FieldsSound, List.not_mem_nil, false_implies, implies_true, and_true]

/-! ## Cycles of bases -/

theorem typeName_eq {id : Nat} {t : Declared Script.TypeDecl} (ht : s.decls.types[id]? = some t) :
    s.typeName id = t.decl.name.name := by
  simp only [typeName, ht]

theorem edge_baseGraph {types : List ResolvedType} {u v : Nat} :
    (s.baseGraph types).Edge u v ↔ ∃ t, types[u]? = some t ∧ s.baseId? t = some v := by
  unfold Graph.Edge baseGraph
  simp only [List.mem_filterMap, Option.map_eq_some_iff, Prod.mk.injEq, Prod.exists,
    List.mem_zipIdx_iff_getElem?]
  constructor
  · rintro ⟨t, id, hid, base, hbase, rfl, rfl⟩
    exact ⟨t, hid, hbase⟩
  · rintro ⟨t, hid, hbase⟩
    exact ⟨t, u, hid, v, hbase, rfl, rfl⟩

/-- The bases found when none is refused. -/
def resolvedTypes (s : Scope) : List ResolvedType := s.decls.types.map fun t => (s.resolveType t).1

theorem edge_resolvedTypes (h : s.contents.NamesSound)
    (hs : ∀ t ∈ s.contents.types, s.contents.BaseSound t) {u v : Nat} :
    (s.baseGraph s.resolvedTypes).Edge u v ↔
      ∃ t b, s.decls.types[u]? = some t ∧ s.decls.types[v]? = some b ∧
        ∃ p, t.decl.base = some p ∧ s.contents.NamesType p (.own b.decl.name.name) := by
  rw [edge_baseGraph]
  simp only [resolvedTypes, List.getElem?_map, Option.map_eq_some_iff]
  constructor
  · rintro ⟨_, ⟨t, ht, rfl⟩, hbase⟩
    have hsound := hs t.decl (mem_types_iff.2 ⟨u, t, ht, rfl⟩)
    unfold baseId? at hbase
    split at hbase
    · rename_i n hn
      obtain ⟨b, hb, rfl⟩ := (typeId?_eq_some h).1 hbase
      exact ⟨t, b, ht, hb, (resolveBase_eq_some h hsound).1 hn⟩
    · cases hbase
  · rintro ⟨t, b, ht, hb, hp⟩
    have hsound := hs t.decl (mem_types_iff.2 ⟨u, t, ht, rfl⟩)
    refine ⟨_, ⟨t, ht, rfl⟩, ?_⟩
    have hn : (s.resolveType t).1.base = some (.own b.decl.name.name) :=
      (resolveBase_eq_some h hsound).2 hp
    rw [baseId?, hn]
    exact (typeId?_eq_some h).2 ⟨b, hb, rfl⟩

theorem represents_baseGraph (h : s.contents.NamesSound)
    (hs : ∀ t ∈ s.contents.types, s.contents.BaseSound t) :
    (s.baseGraph s.resolvedTypes).Represents s.typeName s.contents.Extends := by
  refine Graph.represents_of_edges (nodup_typeNames h) ?_ (fun u t ht => typeName_eq ht)
    (fun u v => edge_resolvedTypes h hs) fun n b => ?_
  · simp [baseGraph, resolvedTypes]
  · constructor
    · rintro ⟨t, ht, rfl, p, hp, hnames⟩
      obtain ⟨x, hx, rfl⟩ := List.mem_map.1 ht
      obtain ⟨y, hy, rfl⟩ := hnames.declared
      obtain ⟨z, hz, rfl⟩ := List.mem_map.1 hy
      exact ⟨x, hx, z, hz, rfl, rfl, p, hp, hnames⟩
    · rintro ⟨x, hx, y, hy, rfl, rfl, hp⟩
      exact ⟨x.decl, List.mem_map_of_mem hx, rfl, hp⟩

/-! ## Marks -/

theorem getElem?_markCyclic (cyclic : List Nat) (types : List ResolvedType) (id : Nat) :
    (markCyclic cyclic types)[id]? = types[id]?.map fun t =>
      if cyclic.contains id then { t with inCycle := true } else t := by
  rw [markCyclic, List.getElem?_mapIdx]

theorem markCyclic_nil (types : List ResolvedType) : markCyclic [] types = types :=
  List.ext_getElem? fun id => by
    rw [getElem?_markCyclic]
    cases types[id]? <;> rfl

/-- A mark changes nothing about base and fields. -/
theorem unmarked_of_getElem? {cyclic : List Nat} {types : List ResolvedType} {id : Nat}
    {r : ResolvedType} (h : (markCyclic cyclic types)[id]? = some r) :
    ∃ t, types[id]? = some t ∧ r.base = t.base ∧ r.fields = t.fields := by
  rw [getElem?_markCyclic] at h
  obtain ⟨t, ht, rfl⟩ := Option.map_eq_some_iff.1 h
  refine ⟨t, ht, ?_⟩
  split <;> exact ⟨rfl, rfl⟩

theorem bind_markCyclic (cyclic : List Nat) (types : List ResolvedType) (id : Nat) :
    (markCyclic cyclic types)[id]?.bind s.baseId? = types[id]?.bind s.baseId? := by
  rw [getElem?_markCyclic]
  cases types[id]? with
  | none => rfl
  | some t =>
    dsimp only [Option.map_some, Option.bind_some]
    split <;> rfl

/-- The types with those marked that lie on cycles. -/
def markedTypes (s : Scope) : List ResolvedType :=
  markCyclic (s.baseGraph s.resolvedTypes).cycles.flatten s.resolvedTypes

theorem cycles_baseGraph (hs : s.contents.Sound) :
    (s.baseGraph s.resolvedTypes).cycles = [] := by
  have hrep := represents_baseGraph hs.names hs.bases
  exact (Graph.cycles_eq_nil hrep.inRange).2 (hrep.acyclic_iff.2 hs.noBaseCycle)

theorem markedTypes_of_sound (hs : s.contents.Sound) : s.markedTypes = s.resolvedTypes := by
  rw [markedTypes, cycles_baseGraph hs]
  exact markCyclic_nil _

/-- What is said about fields that repeat inherited ones. -/
def shadowing (s : Scope) : List Diagnostic :=
  (s.decls.types.zip s.markedTypes).zipIdx.flatMap fun ((declared, t), id) =>
    s.reportShadowing (s.linked s.markedTypes) declared id t

theorem says_shadowing (s : Scope) :
    Says (fun p => ∃ field type owner, p = .shadowedField field type owner) s.shadowing := by
  refine says_flatMap fun ⟨⟨t, r⟩, id⟩ _ => ?_
  unfold reportShadowing
  dsimp only
  split
  · exact says_nil
  · intro d hd
    obtain ⟨f, -, hf⟩ := List.mem_filterMap.1 hd
    split at hf
    · cases hf
    · cases hf
      exact ⟨_, _, _, ⟨_, _, _, rfl⟩, rfl⟩

theorem noErrors_shadowing (s : Scope) : NoErrors s.shadowing := by
  intro d hd
  obtain ⟨p, unit, span, ⟨field, type, owner, rfl⟩, rfl⟩ := s.says_shadowing d hd
  rfl

theorem resolveTypes_eq (s : Scope) :
    s.resolveTypes =
      ⟨s.markedTypes,
        s.decls.types.flatMap (fun t => (s.resolveType t).diagnostics) ++
          (s.baseGraph s.resolvedTypes).cycles.flatMap (s.reportBaseCycle s.resolvedTypes) ++
            s.shadowing,
        s.decls.types.flatMap fun t => (s.resolveType t).modules⟩ := by
  have hresolved : (s.decls.types.map s.resolveType).map Pass.result = s.resolvedTypes :=
    List.map_map
  simp only [resolveTypes, hresolved, List.flatMap_map, shadowing, markedTypes]

theorem resolveTypes_snd (s : Scope) :
    s.resolveTypes.2 = s.decls.types.flatMap (fun t => (s.resolveType t).2) ++
      (s.baseGraph s.resolvedTypes).cycles.flatMap (s.reportBaseCycle s.resolvedTypes) ++
        s.shadowing :=
  congrArg Pass.diagnostics s.resolveTypes_eq

theorem reportBaseCycle_cons (types : List ResolvedType) {u : Nat}
    (hu : u < s.decls.types.length) (rest : List Nat) :
    ∃ d, s.reportBaseCycle types (u :: rest) = [d] ∧ d.isError = true := by
  simp only [reportBaseCycle, List.getElem?_eq_getElem hu]
  exact ⟨_, rfl, rfl⟩

/-! ## All types -/

theorem noErrors_resolveTypes (h : s.contents.NamesSound) :
    NoErrors s.resolveTypes.2 ↔
      (∀ t ∈ s.contents.types, s.contents.BaseSound t) ∧
        (∀ t ∈ s.contents.types, s.contents.FieldsSound t) ∧
          ∀ n, ¬ Relation.TransGen s.contents.Extends n n := by
  have htypes : NoErrors (s.decls.types.flatMap fun t => (s.resolveType t).2) ↔
      (∀ t ∈ s.contents.types, s.contents.BaseSound t) ∧
        ∀ t ∈ s.contents.types, s.contents.FieldsSound t := by
    rw [(says_flatMap fun t _ => says_resolveType t).allErrors.noErrors_iff,
      List.flatMap_eq_nil_iff]
    simp only [resolveType_eq_nil h, contents, List.forall_mem_map, ← forall_and]
  have hsize : (s.baseGraph s.resolvedTypes).size = s.decls.types.length := by
    simp [baseGraph, resolvedTypes]
  have hcycles := noErrors_cycles (g := s.baseGraph s.resolvedTypes)
    fun u hu rest => s.reportBaseCycle_cons s.resolvedTypes (hsize ▸ hu) rest
  rw [resolveTypes_snd, noErrors_append, noErrors_append, htypes, hcycles, ← and_assoc]
  constructor
  · rintro ⟨⟨hsound, hcycles⟩, -⟩
    have hrep := represents_baseGraph h hsound.1
    exact ⟨hsound, hrep.acyclic_iff.1 ((Graph.cycles_eq_nil hrep.inRange).1 hcycles)⟩
  · rintro ⟨hsound, hacyclic⟩
    have hrep := represents_baseGraph h hsound.1
    exact ⟨⟨hsound, (Graph.cycles_eq_nil hrep.inRange).2 (hrep.acyclic_iff.2 hacyclic)⟩,
      s.noErrors_shadowing⟩

end Scope
end Linkage
