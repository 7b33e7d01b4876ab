import Linkage.Proofs.Build.Typing
import Linkage.Proofs.Build.Values

/-!
# Linkage.Proofs.Build.Acceptance

`compile_accepts_iff`: a compile has an output exactly if the program is well formed, whatever the
options.

Each pass has been dealt with on its own. What is left is that registration keeps all declarations
when it has nothing to say, so that the later passes see the same declarations as `WellFormed`, and
that the order of diagnostics does not matter.
-/

namespace Linkage

namespace Declarations

/-- All declarations of the sources with the numbers of their units. -/
def ofSources (sources : List Source) : Declarations :=
  let items := declared (readUnits sources.zipIdx).1
  ⟨typesOf items, constsOf items⟩

theorem admits_iff {module : String} {snapshot : Snapshot} {d : Declarations} :
    empty.Admits d.types d.constants ↔
      (Scope.contents ⟨module, snapshot, d⟩).NamesSound ∧
        ∀ t ∈ (Scope.contents ⟨module, snapshot, d⟩).types,
          ¬ (t.modifiers.isSealed = true ∧ t.modifiers.isAbstract = true) := by
  simp only [Scope.contents, List.forall_mem_map]
  constructor
  · rintro ⟨ht, hb, hm, hc⟩
    refine ⟨⟨?_, List.forall_mem_map.2 hb, ?_⟩, hm⟩
    · rw [List.map_map]
      exact ht
    · rw [List.map_map]
      exact hc
  · rintro ⟨⟨ht, hb, hc⟩, hm⟩
    rw [List.map_map] at ht hc
    exact ⟨ht, List.forall_mem_map.1 hb, hm, hc⟩

end Declarations

/-- The scope of a compile that keeps all declarations. -/
def Scope.ofSources (module : String) (sources : List Source) (snapshot : Snapshot) : Scope :=
  ⟨module, snapshot, .ofSources sources⟩

theorem Scope.contents_ofSources (module : String) (sources : List Source) (snapshot : Snapshot) :
    (Scope.ofSources module sources snapshot).contents =
      Contents.ofSources module sources snapshot := by
  have hitems : (declared (readUnits sources.zipIdx).1).map Prod.snd = Source.items sources := by
    rw [declared_readUnits, List.zipIdx_map_fst]
  simp only [Scope.contents, Scope.ofSources, Declarations.ofSources, Declarations.decls_typesOf,
    Declarations.decls_constsOf, hitems, Contents.ofSources]

namespace Program

variable {module : String} {sources : List Source} {snapshot : Snapshot}

theorem hasErrors_eq_false {p : Program} : p.hasErrors = false ↔ NoErrors p.diagnostics := by
  simp [hasErrors, NoErrors]

theorem registration_eq_nil (module : String) (sources : List Source) (snapshot : Snapshot) :
    (Declarations.ofUnits (readUnits sources.zipIdx).1).2 = [] ↔
      (Contents.ofSources module sources snapshot).NamesSound ∧
        ∀ t ∈ (Contents.ofSources module sources snapshot).types,
          ¬ (t.modifiers.isSealed = true ∧ t.modifiers.isAbstract = true) := by
  rw [← Scope.contents_ofSources]
  exact (Declarations.addAll_eq_nil _ .empty List.nodup_nil List.nodup_nil).trans
    (Declarations.admits_iff (d := .ofSources sources))

theorem scope_ofUnits (h : (Declarations.ofUnits (readUnits sources.zipIdx).1).2 = []) :
    (Declarations.ofUnits (readUnits sources.zipIdx).1).1 = .ofSources sources :=
  Declarations.addAll_eq _ _ h

theorem noErrors_mergeSort {ds : List Diagnostic} {le : Diagnostic → Diagnostic → Bool} :
    NoErrors (ds.mergeSort le) ↔ NoErrors ds :=
  forall_congr' fun _ => by rw [List.mem_mergeSort]

theorem readable_iff :
    NoErrors (readUnits sources.zipIdx).2 ↔
      ∀ s ∈ sources, s.isBlank = false → (Script.parse s.text).2 = [] := by
  rw [noErrors_readUnits]
  constructor
  · intro h s hs
    rw [← List.zipIdx_map_fst 0 sources] at hs
    obtain ⟨u, hu, rfl⟩ := List.mem_map.1 hs
    exact h u hu
  · intro h u hu
    exact h u.1 (List.fst_mem_of_mem_zipIdx hu)

/-- What the passes over the declarations say, before it is put in order. -/
def semantic (module : String) (sources : List Source) (snapshot : Snapshot) :
    List Diagnostic :=
  let scope : Scope := ⟨module, snapshot, (Declarations.ofUnits (readUnits sources.zipIdx).1).1⟩
  (Declarations.ofUnits (readUnits sources.zipIdx).1).2 ++ scope.resolveTypes.2 ++
    scope.resolveConsts.2

theorem diagnostics_ofSources :
    (ofSources module sources snapshot).diagnostics =
      (readUnits sources.zipIdx).2 ++
        (semantic module sources snapshot).mergeSort Diagnostic.notAfter := rfl

theorem noErrors_semantic :
    NoErrors (semantic module sources snapshot) ↔
      (Contents.ofSources module sources snapshot).Sound := by
  have hregistration : NoErrors (Declarations.ofUnits (readUnits sources.zipIdx).1).2 ↔
      (Declarations.ofUnits (readUnits sources.zipIdx).1).2 = [] :=
    (Declarations.allErrors_addAll _ .empty).noErrors_iff
  have hcontents := Scope.contents_ofSources module sources snapshot
  unfold semantic
  dsimp only
  rw [noErrors_append, noErrors_append, hregistration]
  constructor
  · rintro ⟨⟨hnil, htypes⟩, hconsts⟩
    obtain ⟨hnames, hmodifiers⟩ := (registration_eq_nil module sources snapshot).1 hnil
    rw [scope_ofUnits hnil] at htypes hconsts
    rw [← hcontents] at hnames
    obtain ⟨hbases, hfields, hacyclic⟩ := (Scope.noErrors_resolveTypes hnames).1 htypes
    obtain ⟨hpaths, hnocycle, hvalues⟩ := (Scope.noErrors_resolveConsts hnames).1 hconsts
    rw [← hcontents] at hmodifiers ⊢
    exact ⟨hnames, hmodifiers, hbases, hfields, hacyclic, hpaths, hnocycle, hvalues⟩
  · intro h
    have hnil := (registration_eq_nil module sources snapshot).2 ⟨h.names, h.modifiers⟩
    rw [scope_ofUnits hnil]
    rw [← hcontents] at h
    exact ⟨⟨hnil, (Scope.noErrors_resolveTypes h.names).2 ⟨h.bases, h.fields, h.noBaseCycle⟩⟩,
      (Scope.noErrors_resolveConsts h.names).2 ⟨h.paths, h.noConstCycle, h.values⟩⟩

theorem noErrors_ofSources :
    NoErrors (ofSources module sources snapshot).diagnostics ↔
      WellFormed module sources snapshot := by
  rw [diagnostics_ofSources, noErrors_append, readable_iff, noErrors_mergeSort, noErrors_semantic]
  exact ⟨fun h => ⟨h.1, h.2⟩, fun h => ⟨h.readable, h.sound⟩⟩

end Program

theorem isSome_output {options : Options} {module : String} {sources : List Source}
    {snapshot : Snapshot} :
    (compile options module sources snapshot).output.isSome = true ↔
      NoErrors (Program.ofSources module sources snapshot).diagnostics := by
  rw [← Program.hasErrors_eq_false]
  unfold compile
  dsimp only
  split
  · rename_i herrors
    rw [herrors]
    exact iff_of_false (fun h => nomatch h) (fun h => nomatch h)
  · rename_i herrors
    exact iff_of_true rfl (Bool.eq_false_iff.2 herrors)

/-- Nothing is emitted exactly if an error is reported. -/
theorem output_eq_none_iff {options : Options} {module : String} {sources : List Source}
    {snapshot : Snapshot} :
    (compile options module sources snapshot).output = none ↔
      ∃ d ∈ (compile options module sources snapshot).diagnostics, d.isError = true := by
  unfold compile
  dsimp only
  split
  · rename_i herrors
    exact iff_of_true rfl (List.any_eq_true.1 herrors)
  · rename_i herrors
    exact iff_of_false (fun h => nomatch h) fun h => herrors (List.any_eq_true.2 h)

theorem compile_accepts_iff (options : Options) (module : String) (sources : List Source)
    (snapshot : Snapshot) :
    (compile options module sources snapshot).output.isSome = true ↔
      WellFormed module sources snapshot := by
  rw [isSome_output, Program.noErrors_ofSources]

end Linkage
