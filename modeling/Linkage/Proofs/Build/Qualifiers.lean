import Linkage.Proofs.Build.References

/-!
# Linkage.Proofs.Build.Qualifiers

`compile_references`: the list of other modules in an image is exact.

* `Source.qualifiers` — the names in front of a point in the paths of the sources.
* `Interface.named` — the other modules that bases, fields and initializers of an image name.
* `WellFormed.mem_named` — a debug image names all that its program names. A release image has
  values in place of initializers and names what the types do.
* `Contents.Sound.mem_snapshot` — sound declarations lead into modules of the snapshot only.
-/

namespace Linkage

/-! ## Paths of the sources -/

def Script.Item.paths : Script.Item → List Script.Path
  | .type t => t.paths
  | .const c => c.value.paths

def Script.paths (s : Script) : List Script.Path := s.items.flatMap Script.Item.paths

/-- The names that stand in front of a point. -/
def Source.qualifiers (sources : List Source) : List String :=
  (sources.flatMap fun s => (Script.parse s.text).1.paths).filterMap fun p =>
    p.qualifier.map (·.name)

theorem Contents.mem_paths {module : String} {sources : List Source} {snapshot : Snapshot}
    {p : Script.Path} :
    p ∈ (ofSources module sources snapshot).paths ↔
      p ∈ sources.flatMap fun s => (Script.parse s.text).1.paths := by
  have hitems : (sources.flatMap fun s => (Script.parse s.text).1.paths) =
      (Source.items sources).flatMap Script.Item.paths := by
    rw [Source.items_eq, List.flatMap_assoc]
    rfl
  simp only [hitems, paths, ofSources, List.mem_append, List.mem_flatMap, List.mem_filterMap]
  constructor
  · rintro (⟨t, ⟨i, hi, ht⟩, hp⟩ | ⟨c, ⟨i, hi, hc⟩, hp⟩)
    · cases i with
      | type t' =>
        cases ht
        exact ⟨_, hi, hp⟩
      | const c => cases ht
    · cases i with
      | type t => cases hc
      | const c' =>
        cases hc
        exact ⟨_, hi, hp⟩
  · rintro ⟨i, hi, hp⟩
    cases i with
    | type t => exact .inl ⟨t, ⟨_, hi, rfl⟩, hp⟩
    | const c => exact .inr ⟨c, ⟨_, hi, rfl⟩, hp⟩

theorem Contents.refers_iff_qualifiers {module : String} {sources : List Source}
    {snapshot : Snapshot} {m : String} :
    (ofSources module sources snapshot).Refers m ↔ m ∈ Source.qualifiers sources ∧ m ≠ module := by
  simp only [Refers, mem_paths, LeadsInto, Source.qualifiers, List.mem_filterMap,
    Option.map_eq_some_iff]
  constructor
  · rintro ⟨p, hp, hne, hq⟩
    exact ⟨⟨p, hp, hq⟩, hne⟩
  · rintro ⟨⟨p, hp, hq⟩, hne⟩
    exact ⟨p, hp, hne, hq⟩

/-! ## Members of an image -/

def TypeDef.named (t : TypeDef) : List String :=
  (t.base.toList ++ t.fields.map (·.type)).filterMap TypeRef.module?

def ConstDef.named (c : ConstDef) : List String :=
  match c.init with
  | .value _ => []
  | .expr e => e.refs.filterMap Prod.fst

/-- The other modules that the types name, in bases and fields, and those of the initializers. -/
def Interface.named (i : Interface) : List String :=
  i.types.flatMap (·.named) ++ i.constants.flatMap (·.named)

theorem Term.modules_toConstExpr (ownName : Nat → String) (t : Term) :
    (t.toConstExpr ownName).refs.filterMap Prod.fst = t.modules := by
  induction t with
  | literal v => rfl
  | own id => rfl
  | imported m c span => rfl
  | negate t span ih => exact ih
  | binary op l r span ihl ihr =>
    rw [toConstExpr, ConstExpr.refs, List.filterMap_append, ihl, ihr, modules]

theorem Program.named_typeDef (p : Program) (declared : Declared Script.TypeDecl)
    (t : ResolvedType) : (p.typeDef declared t).named = t.modules := by
  simp only [TypeDef.named, ResolvedType.modules, typeDef, TypeDef.make, List.map_map]
  rfl

namespace WellFormed

variable {module : String} {sources : List Source} {snapshot : Snapshot}

theorem named_types (h : WellFormed module sources snapshot) (o : Optimization) :
    ((Program.ofSources module sources snapshot).interface o).types.flatMap (·.named) =
      (Program.ofSources module sources snapshot).types.flatMap (·.modules) := by
  simp only [h.types_interface, h.types_eq, Scope.resolvedTypes, List.flatMap_map,
    Program.named_typeDef]

theorem mem_named_constants (h : WellFormed module sources snapshot) {o : Optimization}
    {m : String} :
    m ∈ ((Program.ofSources module sources snapshot).interface o).constants.flatMap (·.named) ↔
      o = .debug ∧
        m ∈ (Program.ofSources module sources snapshot).constants.flatMap (·.modules) := by
  simp only [List.mem_flatMap]
  constructor
  · rintro ⟨d, hd, hm⟩
    obtain ⟨id, c, t, v, hat, rfl⟩ := h.exists_of_mem_constants hd
    cases o with
    | release => cases hm
    | debug =>
      refine ⟨rfl, _, List.mem_of_getElem? (h.getElem?_resolved hat), ?_⟩
      simp only [ResolvedConst.modules, Option.toList_some, List.flatMap_singleton]
      rwa [← Term.modules_toConstExpr]
  · rintro ⟨rfl, r, hr, hm⟩
    obtain ⟨id, c, t, v, hat, rfl⟩ := h.exists_of_mem_resolved hr
    refine ⟨_, List.mem_of_getElem? (h.getElem?_constants_eq .debug hat), ?_⟩
    simp only [ResolvedConst.modules, Option.toList_some, List.flatMap_singleton] at hm
    rwa [← Term.modules_toConstExpr] at hm

/-- What the members of an image name, in terms of the program it is made of. -/
theorem mem_named (h : WellFormed module sources snapshot) {o : Optimization} {m : String} :
    m ∈ ((Program.ofSources module sources snapshot).interface o).named ↔
      m ∈ (Program.ofSources module sources snapshot).types.flatMap (·.modules) ∨
        o = .debug ∧
          m ∈ (Program.ofSources module sources snapshot).constants.flatMap (·.modules) := by
  rw [Interface.named, List.mem_append, h.named_types, h.mem_named_constants]

end WellFormed

/-! ## The snapshot -/

theorem Contents.NamesType.mem_snapshot {d : Contents} {p : Script.Path} {r : TypeRef} {m : String}
    (h : d.NamesType p r) (hm : d.LeadsInto p m) : ∃ x ∈ d.snapshot.references, x.name = m := by
  have hmodule := h.module?_iff.2 hm
  cases h with
  | builtin _ => cases hmodule
  | own _ _ => cases hmodule
  | self _ _ _ => cases hmodule
  | imported _ ht =>
    cases hmodule
    unfold Snapshot.type? at ht
    split at ht
    · cases ht
    · rename_i x hx
      exact ⟨x, Snapshot.mem_of_get? hx, Snapshot.name_of_get? hx⟩

theorem Contents.NamesImported.mem_snapshot {d : Contents} {p : Script.Path} {m : String}
    {c : ConstDef} (h : d.NamesImported p m c) : ∃ x ∈ d.snapshot.references, x.name = m := by
  obtain ⟨x, hx, -⟩ := Snapshot.const?_eq_some.1 h.exported
  exact ⟨x, Snapshot.mem_of_get? hx, Snapshot.name_of_get? hx⟩

/-- Every path is found, so there is a module for each of them to lead into. -/
theorem Contents.Sound.mem_snapshot {d : Contents} (h : d.Sound) {m : String} (hm : d.Refers m) :
    ∃ x ∈ d.snapshot.references, x.name = m := by
  rcases refers_iff.1 hm with ⟨t, ht, p, hp, hm⟩ | ⟨c, hc, p, hp, hm⟩
  · rcases List.mem_append.1 hp with hp | hp
    · obtain ⟨r, hr, -⟩ := h.bases t ht p (Option.mem_toList.1 hp)
      exact hr.mem_snapshot hm
    · obtain ⟨f, hf, rfl⟩ := List.mem_map.1 hp
      obtain ⟨r, hr⟩ := (h.fields t ht).2 f hf
      exact hr.mem_snapshot hm
  · rcases h.paths c hc p hp with ⟨c', hown⟩ | ⟨m', c', himported⟩
    · obtain ⟨hne, q, hq, rfl⟩ := hm
      exact absurd (hown.isLocal q hq) hne
    · obtain ⟨-, q, hq, rfl⟩ := hm
      obtain ⟨q', hq', rfl⟩ := himported.qualifier
      rw [Option.some_inj.1 (hq.symm.trans hq')]
      exact himported.mem_snapshot

/--
The modules that an image says it uses ascend strictly. They are the qualifiers in the sources but
for the module's own name. Lookups take them one by one in the places where bases, fields and
initializers name them, so none that a member of the image names is missing; in a debug image,
which keeps the initializers, every one of them is named by a member. All are modules of the
snapshot.
-/
theorem compile_references {options : Options} {module : String} {sources : List Source}
    {snapshot : Snapshot} {o : Output}
    (h : (compile options module sources snapshot).output = some o) :
    let program := Program.ofSources module sources snapshot
    let emitted := program.interface options.optimization
    (o.image = emitted.encode ∧ (emitted.Fits → Interface.decode o.image = .ok emitted)) ∧
      emitted.references.Pairwise (· < ·) ∧
      (∀ m, m ∈ emitted.references ↔ m ∈ Source.qualifiers sources ∧ m ≠ module) ∧
      (∀ m, m ∈ emitted.references ↔ m ∈ program.modules) ∧
      program.modules = program.named ∧
      (∀ m ∈ emitted.named, m ∈ emitted.references) ∧
      (options.optimization = .debug → ∀ m ∈ emitted.references, m ∈ emitted.named) ∧
      ∀ m ∈ emitted.references, ∃ r ∈ snapshot.references, r.name = m := by
  obtain ⟨hw, himage⟩ := compile_output h
  have hrefers (m : String) : m ∈ (Program.ofSources module sources snapshot).references ↔
      (Contents.ofSources module sources snapshot).Refers m := hw.mem_references
  have hnamed (m : String) : m ∈ (Program.ofSources module sources snapshot).references ↔
      m ∈ (Program.ofSources module sources snapshot).named := by
    rw [Program.mem_references, hw.modules_eq]
  refine ⟨⟨himage, fun hfits => ?_⟩, Program.references_ascending _, fun m => ?_,
    fun m => Program.mem_references, hw.modules_eq, fun m hm => ?_, fun hdebug m hm => ?_,
    fun m hm => ?_⟩
  · rw [himage]
    exact hw.decode_encode _ hfits
  · exact (hrefers m).trans Contents.refers_iff_qualifiers
  · exact (hnamed m).2 (List.mem_append.2 ((hw.mem_named.1 hm).imp_right And.right))
  · exact hw.mem_named.2 ((List.mem_append.1 ((hnamed m).1 hm)).imp_right fun hm => ⟨hdebug, hm⟩)
  · exact hw.sound.mem_snapshot ((hrefers m).1 hm)

/-! ### A base, two fields and a constant in two units -/

def zoo : Snapshot :=
  ⟨[⟨⟨"Art", .release, [], [], [⟨"DEPTH", .int, .value (.int 8)⟩]⟩, .memory⟩,
    ⟨⟨"Bar", .release, [], [.make "Bar" "Seat" .empty none []], []⟩, .memory⟩,
    ⟨⟨"Cup", .release, [], [.make "Cup" "Tea" .empty none []], []⟩, .memory⟩,
    ⟨⟨"Zoo", .release, [], [.make "Zoo" "Beast" .empty none []], []⟩, .memory⟩]⟩

def visits : List Source :=
  [⟨"type Guest extends Zoo.Beast \x7b seat: Bar.Seat; \x7d", none⟩,
    ⟨"const D = -Art.DEPTH; type Host extends Visit.Guest \x7b other: Bar.Seat; \x7d", none⟩]

def emittedVisits : Interface :=
  { name := "Visit"
    optimization := .debug
    references := ["Art", "Bar", "Zoo"]
    types :=
      [.make "Visit" "Guest" .empty (some (.imported "Zoo" "Beast"))
          [⟨"seat", .imported "Bar" "Seat"⟩],
        .make "Visit" "Host" .empty (some (.own "Guest")) [⟨"other", .imported "Bar" "Seat"⟩]]
    constants := [⟨"D", .int, .expr (.negate (.ref (some "Art") "DEPTH"))⟩] }

theorem compile_references_visits :
    ∃ o, (compile .debug "Visit" visits zoo).output = some o ∧
      Interface.decode o.image = .ok emittedVisits ∧
      Source.qualifiers visits = ["Zoo", "Bar", "Art", "Visit", "Bar"] ∧
      (∀ m, m ∈ emittedVisits.references ↔ m ∈ Source.qualifiers visits ∧ m ≠ "Visit") ∧
      (Program.ofSources "Visit" visits zoo).named = ["Zoo", "Bar", "Bar", "Art"] ∧
      ∀ m ∈ emittedVisits.references, m ∈ emittedVisits.named := by
  have hsome : (compile .debug "Visit" visits zoo).output.isSome = true := by
    decide +kernel
  have hemitted :
      (Program.ofSources "Visit" visits zoo).interface Options.debug.optimization =
        emittedVisits := by
    decide +kernel
  have htaken : (Program.ofSources "Visit" visits zoo).modules = ["Zoo", "Bar", "Bar", "Art"] := by
    decide +kernel
  obtain ⟨o, ho⟩ := Option.isSome_iff_exists.1 hsome
  obtain ⟨⟨-, hdecode⟩, -, hmem, -, htakes, -, hnames, -⟩ := compile_references ho
  rw [hemitted] at hdecode hmem hnames
  exact ⟨o, ho, hdecode (by decide +kernel), by decide +kernel, hmem, htakes.symm.trans htaken,
    hnames rfl⟩

end Linkage
