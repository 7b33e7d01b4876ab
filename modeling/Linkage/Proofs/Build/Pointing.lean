import Linkage.Proofs.Build.Resolution
import Linkage.Proofs.Script.Extent

/-!
# Linkage.Proofs.Build.Pointing

`compile_points_at_text`: every place in a diagnostic is a place in the text of a unit.

* `Located` — diagnostics with places from a list.
* `Script.locations` — the spans of the declarations of a unit, as places there.
* `located_addAll`, `located_resolveTypes`, `located_resolveConsts` — the passes after reading make
  up no places: each diagnostic stands at one of these.
-/

namespace Linkage

open Diagnostic (Location)

/-! ## Places -/

def Located (ls : List Location) (ds : List Diagnostic) : Prop :=
  ∀ d ∈ ds, ∃ l ∈ ls, d.location = some l

section

variable {ls ms : List Location} {ds es : List Diagnostic}

theorem located_nil : Located ls [] := fun _ h => nomatch h

theorem located_append : Located ls (ds ++ es) ↔ Located ls ds ∧ Located ls es :=
  List.forall_mem_append

theorem located_singleton (problem : Problem) {unit : Nat} {span : Span} (h : ⟨unit, span⟩ ∈ ls) :
    Located ls [problem.located unit span] :=
  List.forall_mem_singleton.2 ⟨_, h, rfl⟩

theorem located_flatMap {α : Type} {xs : List α} {f : α → List Diagnostic}
    (h : ∀ x ∈ xs, Located ls (f x)) : Located ls (xs.flatMap f) := by
  intro d hd
  obtain ⟨x, hx, hd⟩ := List.mem_flatMap.1 hd
  exact h x hx d hd

theorem Located.mono (h : Located ls ds) (hsub : ls ⊆ ms) : Located ms ds := by
  intro d hd
  obtain ⟨l, hl, hlocation⟩ := h d hd
  exact ⟨l, hsub hl, hlocation⟩

end

/-- The spans as places in a unit. -/
def locationsIn (unit : Nat) (spans : List Span) : List Location := spans.map (⟨unit, ·⟩)

theorem mem_locationsIn {unit : Nat} {span : Span} {spans : List Span} :
    ⟨unit, span⟩ ∈ locationsIn unit spans ↔ span ∈ spans := by
  simp [locationsIn]

/-- The places of declarations. -/
def itemLocations (items : List (Nat × Script.Item)) : List Location :=
  items.flatMap fun i => locationsIn i.1 i.2.spans

def Declarations.locations (d : Declarations) : List Location :=
  (d.types.flatMap fun t => locationsIn t.unit t.decl.spans) ++
    d.constants.flatMap fun c => locationsIn c.unit c.decl.spans

/-! ## Parts of a tree -/

namespace Script

theorem Path.span_mem (p : Path) : p.span ∈ p.spans := List.mem_cons_self

theorem Path.qualifier_mem {p : Path} {q : Ident} (h : p.qualifier = some q) :
    q.span ∈ p.spans := by
  simp [Path.spans, h]

theorem Expr.spans_of_mem_paths {e : Expr} {p : Path} (h : p ∈ e.paths) : p.spans ⊆ e.spans := by
  induction e with
  | literal v span => cases h
  | path q =>
    obtain rfl := List.mem_singleton.1 h
    exact List.Subset.refl _
  | negate e span ih => exact fun x hx => List.mem_cons_of_mem _ (ih h hx)
  | binary op l r span ihl ihr =>
    refine fun x hx => List.mem_cons_of_mem _ (List.mem_append.2 ?_)
    exact (List.mem_append.1 h).imp (fun hp => ihl hp hx) fun hp => ihr hp hx

theorem Expr.span_mem (e : Expr) : e.span ∈ e.spans := by
  cases e with
  | path p => exact p.span_mem
  | _ => exact List.mem_cons_self

theorem Expr.span_of_mem_nodes {e node : Expr} (h : node ∈ e.nodes) : node.span ∈ e.spans := by
  induction e with
  | literal v span =>
    obtain rfl := List.mem_singleton.1 h
    exact Expr.span_mem _
  | path p =>
    obtain rfl := List.mem_singleton.1 h
    exact Expr.span_mem _
  | negate e span ih =>
    rcases List.mem_append.1 h with h | h
    · exact List.mem_cons_of_mem _ (ih h)
    · obtain rfl := List.mem_singleton.1 h
      exact Expr.span_mem _
  | binary op l r span ihl ihr =>
    rcases List.mem_append.1 h with h | h
    · exact List.mem_cons_of_mem _ (List.mem_append.2 ((List.mem_append.1 h).imp ihl ihr))
    · obtain rfl := List.mem_singleton.1 h
      exact Expr.span_mem _

theorem TypeDecl.name_mem (t : TypeDecl) : t.name.span ∈ t.spans :=
  List.mem_cons_of_mem _ List.mem_cons_self

theorem TypeDecl.base_subset {t : TypeDecl} {p : Path} (h : t.base = some p) :
    p.spans ⊆ t.spans := by
  intro x hx
  simp [TypeDecl.spans, h, hx]

theorem TypeDecl.field_subset {t : TypeDecl} {f : FieldDecl} (h : f ∈ t.fields) :
    f.spans ⊆ t.spans := by
  refine fun x hx => List.mem_cons_of_mem _ (List.mem_cons_of_mem _ ?_)
  exact List.mem_append_right _ (List.mem_flatMap.2 ⟨f, h, hx⟩)

theorem FieldDecl.name_mem (f : FieldDecl) : f.name.span ∈ f.spans :=
  List.mem_cons_of_mem _ List.mem_cons_self

theorem FieldDecl.type_subset (f : FieldDecl) : f.type.spans ⊆ f.spans :=
  fun _ hx => List.mem_cons_of_mem _ (List.mem_cons_of_mem _ hx)

theorem ConstDecl.name_mem (c : ConstDecl) : c.name.span ∈ c.spans :=
  List.mem_cons_of_mem _ List.mem_cons_self

theorem ConstDecl.value_subset (c : ConstDecl) : c.value.spans ⊆ c.spans :=
  fun _ hx => List.mem_cons_of_mem _ (List.mem_cons_of_mem _ hx)

end Script

/-! ## Registration -/

namespace Declarations

theorem located_add (d : Declarations) (unit : Nat) (item : Script.Item) :
    Located (locationsIn unit item.spans) (d.add unit item).2 := by
  cases item with
  | type t =>
    have hname : ⟨unit, t.name.span⟩ ∈ locationsIn unit t.spans := mem_locationsIn.2 t.name_mem
    have hconflict : Located (locationsIn unit t.spans)
        (if t.modifiers.isSealed && t.modifiers.isAbstract
          then [(Problem.conflictingModifiers t.name.name).located unit t.span] else []) := by
      split
      · exact located_singleton _ (mem_locationsIn.2 List.mem_cons_self)
      · exact located_nil
    show Located (locationsIn unit t.spans) (d.addType unit t).2
    unfold addType
    dsimp only
    split
    · exact located_append.2 ⟨hconflict, located_singleton _ hname⟩
    · split
      · exact located_append.2 ⟨hconflict, located_singleton _ hname⟩
      · exact hconflict
  | const c =>
    show Located (locationsIn unit c.spans) (d.addConst unit c).2
    unfold addConst
    split
    · exact located_singleton _ (mem_locationsIn.2 c.name_mem)
    · exact located_nil

theorem located_addAll (items : List (Nat × Script.Item)) :
    ∀ d : Declarations, Located (itemLocations items) (d.addAll items).2 := by
  induction items with
  | nil => exact fun _ => located_nil
  | cons i items ih =>
    intro d
    exact located_append.2 ⟨(d.located_add i.1 i.2).mono (List.subset_append_left _ _),
      (ih _).mono (List.subset_append_right _ _)⟩

/-- What is kept stands where it was declared. -/
theorem locations_addAll (items : List (Nat × Script.Item)) :
    (empty.addAll items).1.locations ⊆ itemLocations items := by
  obtain ⟨htypes, hconsts⟩ := mem_of_addAll items .empty
  refine List.append_subset.2 ⟨fun l hl => ?_, fun l hl => ?_⟩
  · obtain ⟨t, ht, hl⟩ := List.mem_flatMap.1 hl
    exact List.mem_flatMap.2 ⟨(t.unit, .type t.decl), (htypes t ht).resolve_left nofun, hl⟩
  · obtain ⟨c, hc, hl⟩ := List.mem_flatMap.1 hl
    exact List.mem_flatMap.2 ⟨(c.unit, .const c.decl), (hconsts c hc).resolve_left nofun, hl⟩

variable {d : Declarations} {span : Span}

theorem mem_locations_of_type {t : Declared Script.TypeDecl} (ht : t ∈ d.types)
    (hspan : span ∈ t.decl.spans) : ⟨t.unit, span⟩ ∈ d.locations :=
  List.mem_append_left _ (List.mem_flatMap.2 ⟨t, ht, mem_locationsIn.2 hspan⟩)

theorem mem_locations_of_const {c : Declared Script.ConstDecl} (hc : c ∈ d.constants)
    (hspan : span ∈ c.decl.spans) : ⟨c.unit, span⟩ ∈ d.locations :=
  List.mem_append_right _ (List.mem_flatMap.2 ⟨c, hc, mem_locationsIn.2 hspan⟩)

end Declarations

namespace Scope

variable {s : Scope}

/-! ## Types -/

/-- What is wrong with a path is wrong with its qualifier or with all of it. -/
theorem span_of_typeRef {p : Script.Path} {problem : Problem} {span : Span}
    (h : (s.typeRef p).found = .error (problem, span)) : span ∈ p.spans := by
  rcases typeRef_eq_error h with ⟨q, hq, heq⟩ | ⟨-, heq⟩ <;> cases heq
  · exact Script.Path.qualifier_mem (outward?_eq_some.1 hq.1).1
  · exact p.span_mem

theorem span_of_constTarget {p : Script.Path} {problem : Problem} {span : Span}
    (h : (s.constTarget p).found = .error (problem, span)) : span ∈ p.spans := by
  rcases constTarget_eq_error h with ⟨q, hq, heq⟩ | ⟨-, heq⟩ <;> cases heq
  · exact Script.Path.qualifier_mem (outward?_eq_some.1 hq.1).1
  · exact p.span_mem

theorem Finding.span_mem {t : Script.TypeDecl} {problem : Problem} {span : Span}
    (h : s.Finding t problem span) : span ∈ t.spans := by
  cases h with
  | lost hp herror =>
    have hspan := span_of_typeRef herror
    rcases hp with hp | ⟨f, hf, rfl⟩
    · exact Script.TypeDecl.base_subset hp hspan
    · exact Script.TypeDecl.field_subset hf (f.type_subset hspan)
  | refused hp _ => exact Script.TypeDecl.base_subset hp (Script.Path.span_mem _)
  | repeated hf => exact Script.TypeDecl.field_subset hf (Script.FieldDecl.name_mem _)

theorem located_resolveType {t : Declared Script.TypeDecl} (ht : t ∈ s.decls.types) :
    Located s.decls.locations (s.resolveType t).2 := by
  intro d hd
  obtain ⟨problem, span, hfinding, rfl⟩ := finding_of_mem_resolveType hd
  exact ⟨_, Declarations.mem_locations_of_type ht hfinding.span_mem, rfl⟩

theorem located_reportBaseCycle (types : List ResolvedType) (cycle : List Nat) :
    Located s.decls.locations (s.reportBaseCycle types cycle) := by
  unfold reportBaseCycle
  split
  · exact located_nil
  · split
    · exact located_nil
    · rename_i t ht
      have hmem := List.mem_of_getElem? ht
      exact located_singleton _ (Declarations.mem_locations_of_type hmem t.decl.name_mem)

/-- Only fields that the type has are resolved. -/
theorem decl_of_mem_resolveFields {unit : Nat} {type : String} {f : ResolvedField}
    {fs : List Script.FieldDecl} {seen : List String}
    (h : f ∈ (s.resolveFields unit type seen fs).1) : f.decl ∈ fs := by
  induction fs generalizing seen with
  | nil => cases h
  | cons g fs ih =>
    unfold resolveFields at h
    dsimp only at h
    split at h
    · exact List.mem_cons_of_mem g (ih h)
    · split at h
      · rcases List.mem_cons.1 h with rfl | h
        · exact List.mem_cons_self
        · exact List.mem_cons_of_mem g (ih h)
      · exact List.mem_cons_of_mem g (ih h)

theorem located_reportShadowing {types : Array Linked} {id : Nat} {t : Declared Script.TypeDecl}
    (ht : t ∈ s.decls.types) {r : ResolvedType} (hr : r.fields = (s.resolveType t).1.fields) :
    Located s.decls.locations (s.reportShadowing types t id r) := by
  unfold reportShadowing
  split
  · exact located_nil
  · intro d hd
    obtain ⟨f, hf, hd⟩ := List.mem_filterMap.1 hd
    have hfield : f.decl ∈ t.decl.fields := decl_of_mem_resolveFields (hr ▸ hf)
    have hspan := Script.TypeDecl.field_subset hfield f.decl.name_mem
    dsimp only at hd
    split at hd
    · cases hd
    · cases hd
      exact ⟨_, Declarations.mem_locations_of_type ht hspan, rfl⟩

theorem located_shadowing (s : Scope) : Located s.decls.locations s.shadowing := by
  refine located_flatMap fun x hx => ?_
  obtain ⟨⟨t, r⟩, id⟩ := x
  obtain ⟨ht, hr⟩ := List.getElem?_zip_eq_some.1 (List.mem_zipIdx_iff_getElem?.1 hx)
  obtain ⟨u, hu, -, hfields⟩ := unmarked_of_getElem? hr
  rw [resolvedTypes, List.getElem?_map, ht] at hu
  cases hu
  exact located_reportShadowing (List.mem_of_getElem? ht) hfields

theorem located_resolveTypes (s : Scope) : Located s.decls.locations s.resolveTypes.2 := by
  rw [resolveTypes_snd, located_append, located_append]
  exact ⟨⟨located_flatMap fun _ ht => located_resolveType ht,
    located_flatMap fun cycle _ => located_reportBaseCycle _ cycle⟩, s.located_shadowing⟩

/-! ## Constants -/

theorem located_resolveExpr {c : Declared Script.ConstDecl} (hc : c ∈ s.decls.constants) :
    Located s.decls.locations (s.resolveExpr c.unit c.decl.value).2 := by
  rw [resolveExpr_snd]
  intro d hd
  obtain ⟨p, hp, hlost⟩ := List.mem_filterMap.1 hd
  have hsubset := Script.Expr.spans_of_mem_paths hp
  unfold lost? at hlost
  split at hlost
  · cases hlost
  · rename_i herror
    cases hlost
    have hspan := c.decl.value_subset (hsubset (span_of_constTarget herror))
    exact ⟨_, Declarations.mem_locations_of_const hc hspan, rfl⟩

theorem located_reportConstCycle (cycle : List Nat) :
    Located s.decls.locations (s.reportConstCycle cycle) := by
  unfold reportConstCycle
  split
  · exact located_nil
  · split
    · exact located_nil
    · rename_i c hc
      have hmem := List.mem_of_getElem? hc
      exact located_singleton _ (Declarations.mem_locations_of_const hmem c.decl.name_mem)

/-- What is wrong with a node is said at this node. -/
theorem location_of_fault? {values : Nat → Option Value} {unit : Nat} {node : Script.Expr}
    {d : Diagnostic} (h : s.fault? values unit node = some d) :
    d.location = some ⟨unit, node.span⟩ := by
  unfold fault? at h
  split at h
  · cases h
  · split at h
    · split at h
      · cases h
        rfl
      · cases h
    · cases h
  · split at h
    · cases h
    · split at h
      · cases h
      · cases h
        rfl
  · split at h
    · split at h
      · cases h
      · cases h
        rfl
    · cases h

theorem located_evaluated (s : Scope) : Located s.decls.locations s.evaluated.2 := by
  intro d hd
  obtain ⟨c, hc, -, node, hnode, hfault⟩ := fault_of_mem_evaluated hd
  have hspan := c.decl.value_subset (Script.Expr.span_of_mem_nodes hnode)
  exact ⟨_, Declarations.mem_locations_of_const hc hspan, location_of_fault? hfault⟩

theorem located_resolveConsts (s : Scope) : Located s.decls.locations s.resolveConsts.2 := by
  rw [resolveConsts_eq, located_append, located_append]
  exact ⟨⟨located_flatMap fun _ hc => located_resolveExpr hc,
    located_flatMap fun cycle _ => located_reportConstCycle cycle⟩, s.located_evaluated⟩

end Scope

/-! ## Text -/

/-- What is said about the text of one unit. -/
def textual (source : Source) (unit : Nat) : List Diagnostic :=
  if source.isBlank then [⟨.blankSourceSkipped, (Problem.blankSource unit).message, none⟩]
  else (Script.parse source.text).2.map fun e => (Problem.malformed e).located unit e.span

theorem readUnits_eq (units : List (Source × Nat)) :
    readUnits units =
      ((units.filter (!·.1.isBlank)).map fun u => (u.2, (Script.parse u.1.text).1),
        units.flatMap fun u => textual u.1 u.2) := by
  induction units with
  | nil => rfl
  | cons u units ih =>
    obtain ⟨source, unit⟩ := u
    cases hblank : source.isBlank with
    | true => simp [readUnits_blank hblank, ih, textual, hblank]
    | false => simp [readUnits_text hblank, ih, textual, hblank]

theorem mem_readUnits {units : List (Source × Nat)} {unit : Nat} {script : Script}
    (h : (unit, script) ∈ (readUnits units).1) :
    ∃ source, (source, unit) ∈ units ∧ source.isBlank = false ∧
      script = (Script.parse source.text).1 := by
  rw [readUnits_eq] at h
  obtain ⟨⟨source, n⟩, hu, heq⟩ := List.mem_map.1 h
  obtain ⟨hmem, hblank⟩ := List.mem_filter.1 hu
  cases heq
  exact ⟨source, hmem, by simpa using hblank, rfl⟩

/-- A blank unit is mentioned without a place. All else is wrong with the text of a unit. -/
theorem place_of_mem_readUnits {units : List (Source × Nat)} {d : Diagnostic}
    (h : d ∈ (readUnits units).2) :
    d.code = .blankSourceSkipped ∧ d.location = none ∨
      ∃ source unit, (source, unit) ∈ units ∧ source.isBlank = false ∧
        ∃ e ∈ (Script.parse source.text).2, d.location = some ⟨unit, e.span⟩ := by
  rw [readUnits_eq] at h
  obtain ⟨⟨source, unit⟩, hmem, hd⟩ := List.mem_flatMap.1 h
  dsimp only [textual] at hd
  split at hd
  · obtain rfl := List.mem_singleton.1 hd
    exact .inl ⟨rfl, rfl⟩
  · rename_i hblank
    obtain ⟨e, he, rfl⟩ := List.mem_map.1 hd
    exact .inr ⟨source, unit, hmem, Bool.eq_false_iff.2 hblank, e, he, rfl⟩

/-! ## All passes -/

theorem Program.located_semantic (module : String) (sources : List Source) (snapshot : Snapshot) :
    Located (itemLocations (declared (readUnits sources.zipIdx).1))
      (semantic module sources snapshot) := by
  have hkept := Declarations.locations_addAll (declared (readUnits sources.zipIdx).1)
  unfold semantic
  dsimp only
  rw [located_append, located_append]
  exact ⟨⟨Declarations.located_addAll _ .empty, (Scope.located_resolveTypes _).mono hkept⟩,
    (Scope.located_resolveConsts _).mono hkept⟩

/-- The place of a declaration is that of a span in the tree of its unit. -/
theorem mem_itemLocations {units : List (Nat × Script)} {l : Location}
    (h : l ∈ itemLocations (declared units)) :
    ∃ script, (l.unit, script) ∈ units ∧ l.span ∈ script.spans := by
  obtain ⟨i, hi, hl⟩ := List.mem_flatMap.1 h
  obtain ⟨u, hu, hi⟩ := List.mem_flatMap.1 hi
  obtain ⟨item, hitem, rfl⟩ := List.mem_map.1 hi
  obtain ⟨span, hspan, rfl⟩ := List.mem_map.1 hl
  exact ⟨u.2, hu, List.mem_cons_of_mem _ (List.mem_flatMap.2 ⟨item, hitem, hspan⟩)⟩

/--
If no unit is longer than a word can say, each place in a diagnostic is in a unit that is not blank,
and there it is where a token, the end or an error of the text starts. Only about blank units there
is something to be said without a place. In the trees of the units no sum is too large for a word:
a span starts on a line and does not go beyond the text by its length, though it adds up the lengths
of what it was merged from.
-/
theorem compile_points_at_text {sources : List Source}
    (hsources : ∀ source ∈ sources, (Text.bytes source.text).length < 4294967295)
    (options : Options) (module : String) (snapshot : Snapshot) :
    (∀ d ∈ (compile options module sources snapshot).diagnostics,
      (d.location = none → d.code = .blankSourceSkipped) ∧
      ∀ l, d.location = some l → ∃ source, sources[l.unit]? = some source ∧
        source.isBlank = false ∧ l.span.PointsAt source.text) ∧
    ∀ source ∈ sources,
      (Script.parse source.text).1.Laid source.text ∧
      ∀ span ∈ (Script.parse source.text).1.spans,
        span.col.toNat + span.len.toNat ≤ (Text.bytes source.text).length + 1 := by
  have hunit {source : Source} {unit : Nat} (h : (source, unit) ∈ sources.zipIdx) :
      sources[unit]? = some source ∧ source ∈ sources := by
    have hget := List.mem_zipIdx_iff_getElem?.1 h
    exact ⟨hget, List.mem_of_getElem? hget⟩
  have hsits {source : Source} (h : source ∈ sources) :
      ∀ span ∈ (Script.parse source.text).1.spans, span.Sits source.text :=
    (Script.parse_laid (hsources source h)).1.spans (hsources source h)
  refine ⟨fun d hd => ?_, fun source hmem => ⟨(Script.parse_laid (hsources source hmem)).1, ?_⟩⟩
  · rw [diagnostics_compile, Program.diagnostics_ofSources] at hd
    rcases List.mem_append.1 hd with hd | hd
    · rcases place_of_mem_readUnits hd with ⟨hcode, hnone⟩ | ⟨source, unit, h, hblank, e, he, hl⟩
      · exact ⟨fun _ => hcode, fun l hl => by simp [hnone] at hl⟩
      · obtain ⟨hget, hmem⟩ := hunit h
        refine ⟨fun hnone => by simp [hnone] at hl, fun l hl' => ?_⟩
        obtain rfl := Option.some_inj.1 (hl.symm.trans hl')
        exact ⟨source, hget, hblank, (Script.parse_laid (hsources source hmem)).2 e he⟩
    · obtain ⟨l, hmem, hl⟩ := Program.located_semantic module sources snapshot d
        (List.mem_mergeSort.1 hd)
      obtain ⟨script, hscript, hspan⟩ := mem_itemLocations hmem
      obtain ⟨source, h, hblank, rfl⟩ := mem_readUnits hscript
      obtain ⟨hget, hmem⟩ := hunit h
      obtain ⟨i, j, hlies⟩ := hsits hmem l.span hspan
      refine ⟨fun hnone => by simp [hnone] at hl, fun m hm => ?_⟩
      obtain rfl := Option.some_inj.1 (hl.symm.trans hm)
      exact ⟨source, hget, hblank, hlies.pointsAt⟩
  · intro span hspan
    obtain ⟨i, j, hlies⟩ := hsits hmem span hspan
    exact hlies.fits

/-! ### A division that goes over lines, beside a unit that ends too early -/

def torn : List Source :=
  [⟨" ", none⟩, ⟨"type Torn \x7b x: int; \x7d\nconst RATE =\n  -1 /\n    (2 - 2);", none⟩,
    ⟨"const LATE = 2 @", none⟩]

theorem compile_points_at_text_torn :
    (∀ source ∈ torn, (Text.bytes source.text).length < 4294967295) ∧
      (compile .release "Torn" torn ⟨[]⟩).diagnostics.map (·.location) =
        [none, some ⟨2, ⟨1, 16, 1⟩⟩, some ⟨2, ⟨1, 17, 0⟩⟩, some ⟨1, ⟨3, 3, 7⟩⟩] ∧
      (∀ d ∈ (compile .release "Torn" torn ⟨[]⟩).diagnostics,
        (d.location = none → d.code = .blankSourceSkipped) ∧
        ∀ l, d.location = some l → ∃ source, torn[l.unit]? = some source ∧
          source.isBlank = false ∧ l.span.PointsAt source.text) ∧
      ∀ source ∈ torn,
        (Script.parse source.text).1.Laid source.text ∧
        ∀ span ∈ (Script.parse source.text).1.spans,
          span.col.toNat + span.len.toNat ≤ (Text.bytes source.text).length + 1 := by
  have htorn : ∀ source ∈ torn, (Text.bytes source.text).length < 4294967295 := by decide +kernel
  exact ⟨htorn, by decide +kernel, compile_points_at_text htorn .release "Torn" ⟨[]⟩⟩

end Linkage
