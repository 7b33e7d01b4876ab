import Linkage.Proofs.Build.Inherited
import Linkage.Proofs.Build.Reports

/-!
# Linkage.Proofs.Build.Shadowing

`compile_shadowing`: which fields a compile without errors warns about.

* `Contents.shadowings` — the warnings about one type, given the types that it inherits from.
* `Scope.shadowing_eq` — the pass over the types reports these.
* `WellFormed.semantic_eq` — and no pass has anything else to say of a well-formed program.
-/

namespace Linkage

/-- A warning for each field that some type of the chain has as well, with the first such type. -/
def Contents.shadowings (d : Contents) (chain : List TypeRef) (t : Declared Script.TypeDecl) :
    List Diagnostic :=
  t.decl.fields.filterMap fun f =>
    (chain.find? fun r => f.name.name ∈ d.fieldsOf r).map fun r =>
      (Problem.shadowedField f.name.name t.decl.name.name r.text).located t.unit f.name.span

namespace Scope

variable {s : Scope}

/-! ## One type -/

theorem exists_baseChain (hs : s.contents.Sound) (ha : s.snapshot.Bare) {id : Nat}
    {t : Declared Script.TypeDecl} (ht : s.decls.types[id]? = some t) :
    ∃ rs, s.contents.BaseChain t.decl rs ∧
      s.inherited s.links s.links.size id = s.contents.fieldsAlong rs := by
  have hbehind : s.Behind [] id := fun _ hr => absurd hr List.not_mem_nil
  obtain ⟨rs, hchain, hfields⟩ := exists_chain_inherited hs ha ht hbehind
  refine ⟨rs, hchain, hfields _ ?_⟩
  have hsize : (s.baseGraph s.resolvedTypes).size = s.links.size := by simp [baseGraph, links, linked]
  exact hsize ▸ Graph.weight_le_size _ id

theorem reportShadowing_eq (hs : s.contents.Sound) {id : Nat} {t : Declared Script.TypeDecl}
    (ht : s.decls.types[id]? = some t) {rs : List TypeRef}
    (hfields : s.inherited s.links s.links.size id = s.contents.fieldsAlong rs) :
    s.reportShadowing s.links t id (s.resolveType t).1 = s.contents.shadowings rs t := by
  rw [Contents.shadowings, ← fields_resolveType hs ht, List.filterMap_map, reportShadowing]
  refine List.filterMap_congr fun f _ => ?_
  dsimp only [Function.comp_apply]
  rw [hfields, Contents.find?_fieldsAlong]
  cases rs.find? fun r => f.decl.name.name ∈ s.contents.fieldsOf r <;> rfl

/-! ## All types -/

theorem shadowing_eq (hs : s.contents.Sound) {chain : Script.TypeDecl → List TypeRef}
    (hchain : ∀ (id : Nat) (t : Declared Script.TypeDecl), s.decls.types[id]? = some t →
      s.inherited s.links s.links.size id = s.contents.fieldsAlong (chain t.decl)) :
    s.shadowing = s.decls.types.flatMap fun t => s.contents.shadowings (chain t.decl) t := by
  have hpairs : (s.decls.types.zip s.resolvedTypes).zipIdx =
      s.decls.types.zipIdx.map fun (t, id) => ((t, (s.resolveType t).1), id) := by
    rw [resolvedTypes, List.zip_eq_zipWith, List.zipWith_map_right, List.zipWith_self,
      List.zipIdx_map]
    rfl
  have hreports : s.shadowing = s.decls.types.zipIdx.flatMap fun (t, _) =>
      s.contents.shadowings (chain t.decl) t := by
    rw [shadowing, markedTypes_of_sound hs, hpairs, List.flatMap_map]
    refine List.flatMap_congr fun x hx => ?_
    have ht := List.mem_zipIdx_iff_getElem?.1 hx
    exact reportShadowing_eq hs ht (hchain x.2 x.1 ht)
  rw [hreports]
  conv_rhs => rw [← List.zipIdx_map_fst 0 s.decls.types]
  rw [List.flatMap_map]

/-- The chains, and what is reported by them. -/
theorem exists_chains (hs : s.contents.Sound) (ha : s.snapshot.Bare) :
    ∃ chain : Script.TypeDecl → List TypeRef,
      (∀ t ∈ s.decls.types, ∀ rs, s.contents.BaseChain t.decl rs ↔ rs = chain t.decl) ∧
      s.shadowing = s.decls.types.flatMap fun t => s.contents.shadowings (chain t.decl) t := by
  have hexists : ∀ t ∈ s.contents.types, ∃ rs, s.contents.BaseChain t rs := by
    intro t ht
    obtain ⟨id, x, hx, rfl⟩ := mem_types_iff.1 ht
    obtain ⟨rs, hrs, -⟩ := exists_baseChain hs ha hx
    exact ⟨rs, hrs⟩
  choose! chain hchain using hexists
  refine ⟨chain, fun t ht rs => ?_, shadowing_eq hs fun id t ht => ?_⟩
  · have hrs := hchain t.decl (List.mem_map_of_mem ht)
    exact ⟨fun h => h.unique hs.names hrs, fun h => h ▸ hrs⟩
  · obtain ⟨rs, hrs, hfields⟩ := exists_baseChain hs ha ht
    have hmem := mem_types_iff.2 ⟨id, t, ht, rfl⟩
    rw [hfields, hrs.unique hs.names (hchain t.decl hmem)]

theorem resolveTypes_snd_of_sound (hs : s.contents.Sound) : s.resolveTypes.2 = s.shadowing := by
  have htypes : s.decls.types.flatMap (fun t => (s.resolveType t).2) = [] := by
    refine List.flatMap_eq_nil_iff.2 fun t ht => (resolveType_eq_nil hs.names).2 ?_
    have hmem := List.mem_map_of_mem (f := (·.decl)) ht
    exact ⟨hs.bases _ hmem, hs.fields _ hmem⟩
  rw [resolveTypes_snd, htypes, cycles_baseGraph hs]
  rfl

theorem resolveConsts_snd_of_sound (hs : s.contents.Sound) : s.resolveConsts.2 = [] :=
  s.allErrors_resolveConsts.noErrors_iff.1
    ((noErrors_resolveConsts hs.names).2 ⟨hs.paths, hs.noConstCycle, hs.values⟩)

end Scope

/-! ## All passes -/

theorem WellFormed.semantic_eq {module : String} {sources : List Source} {snapshot : Snapshot}
    (h : WellFormed module sources snapshot) :
    Program.semantic module sources snapshot =
      (Scope.ofSources module sources snapshot).shadowing := by
  have hnil := (Program.registration_eq_nil module sources snapshot).2
    ⟨h.sound.names, h.sound.modifiers⟩
  have hs := h.contents_sound
  rw [Program.semantic, Program.scope_ofUnits hnil, hnil, List.nil_append]
  show (Scope.ofSources module sources snapshot).resolveTypes.2 ++
    (Scope.ofSources module sources snapshot).resolveConsts.2 = _
  rw [Scope.resolveTypes_snd_of_sound hs, Scope.resolveConsts_snd_of_sound hs, List.append_nil]

/--
Let no name of a module of the snapshot have a point in it. A compile without errors then warns
exactly about those fields that some type on the chain of bases has as well, once about each, and it
names the nearest such type. Each type has one such chain: it goes through this module and through
the others, where a base is relative to the module that stores it, and it ends before a type that is
not there or that it has come to before.
-/
theorem compile_shadowing {options : Options} {module : String} {sources : List Source}
    {snapshot : Snapshot} {o : Output}
    (h : (compile options module sources snapshot).output = some o)
    (hbare : ∀ r ∈ snapshot.references, '.' ∉ r.name.toList) :
    let d := Contents.ofSources module sources snapshot
    let types := (Declarations.ofSources sources).types
    ∃ chain : Script.TypeDecl → List TypeRef,
      (∀ t ∈ types, ∀ rs, d.BaseChain t.decl rs ↔ rs = chain t.decl) ∧
      ((compile options module sources snapshot).diagnostics.filter (·.code == .shadowedField)).Perm
        (types.flatMap fun t => d.shadowings (chain t.decl) t) := by
  obtain ⟨hw, -⟩ := compile_output h
  obtain ⟨chain, hchain, hshadowing⟩ := Scope.exists_chains hw.contents_sound hbare
  rw [Scope.contents_ofSources] at hchain hshadowing
  refine ⟨chain, hchain, ?_⟩
  have htext : (readUnits sources.zipIdx).2.filter (·.code == .shadowedField) = [] := by
    refine List.filter_eq_nil_iff.2 fun x hx => ?_
    rcases code_of_mem_readUnits x hx with hcode | hcode <;> rw [hcode] <;> decide
  have hall : (Scope.ofSources module sources snapshot).shadowing.filter
      (·.code == .shadowedField) = (Scope.ofSources module sources snapshot).shadowing := by
    refine List.filter_eq_self.2 fun x hx => ?_
    obtain ⟨p, unit, span, ⟨field, type, owner, rfl⟩, rfl⟩ := Scope.says_shadowing _ x hx
    rfl
  have hsorted := (List.mergeSort_perm (Program.semantic module sources snapshot)
    Diagnostic.notAfter).filter (·.code == .shadowedField)
  rw [diagnostics_compile, Program.diagnostics_ofSources, List.filter_append, htext,
    List.nil_append]
  refine hsorted.trans (.of_eq ?_)
  rw [hw.semantic_eq, hall]
  exact hshadowing

/-! ### A chain that leaves the module and goes round in an image -/

/-- Two types of one module that extend each other. -/
def ring : Snapshot :=
  let types : List TypeDef :=
    [.make "Ring" "Left" .empty (some (.own "Right")) [⟨"x", .builtin .int⟩],
      .make "Ring" "Right" .empty (some (.own "Left")) [⟨"x", .builtin .int⟩, ⟨"y", .builtin .int⟩]]
  ⟨[⟨⟨"Ring", .release, [], types, []⟩, .memory⟩]⟩

def leaf : List Source :=
  [⟨"type Stem extends Ring.Left \x7b w: int; \x7d", none⟩,
    ⟨"type Leaf extends Stem \x7b y: int; z: int; \x7d", none⟩]

theorem compile_shadowing_leaf :
    ((compile .release "Tree" leaf ring).diagnostics.map fun d => (d.message, d.location)) =
        [("field `y` of `Leaf` shadows the field inherited from `Ring.Right`",
          some ⟨1, ⟨1, 26, 1⟩⟩)] ∧
      ∃ chain : Script.TypeDecl → List TypeRef,
        (∀ t ∈ (Declarations.ofSources leaf).types, ∀ rs,
          (Contents.ofSources "Tree" leaf ring).BaseChain t.decl rs ↔ rs = chain t.decl) ∧
        ((compile .release "Tree" leaf ring).diagnostics.filter (·.code == .shadowedField)).Perm
          ((Declarations.ofSources leaf).types.flatMap fun t =>
            (Contents.ofSources "Tree" leaf ring).shadowings (chain t.decl) t) := by
  have hsome : (compile .release "Tree" leaf ring).output.isSome = true := by decide +kernel
  obtain ⟨o, ho⟩ := Option.isSome_iff_exists.1 hsome
  exact ⟨by decide +kernel, compile_shadowing ho (by decide +kernel)⟩

end Linkage
