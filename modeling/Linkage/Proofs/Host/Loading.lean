import Linkage.Proofs.Build.Accepted
import Linkage.Proofs.Host.Compile
import Linkage.Proofs.Symbols

/-!
# Linkage.Proofs.Host.Loading

`build_loads`: what compiles without errors is loaded and registered, and everyone who looks at the
new module sees the interface that was emitted.

The image of an emitted interface and its debug symbols are both read back as they were, so the
loader has nothing to refuse.
-/

namespace Linkage

theorem symbols_of_output {options : Options} {module : String} {sources : List Source}
    {snapshot : Snapshot} {o : Output}
    (h : (compile options module sources snapshot).output = some o) :
    o.symbols = if options.emitSymbols then
      some ((Program.ofSources module sources snapshot).symbols (origins sources)).encode
      else none := by
  unfold compile at h
  dsimp only at h
  split at h
  · cases h
  · cases h
    rfl

namespace Options

theorem emitSymbols_forMode (isDebug : Bool) : (forMode isDebug).emitSymbols = isDebug := by
  cases isDebug <;> rfl

end Options

namespace Host

/-! ## Images -/

/-- What a compile emits is read back: the interface, with its debug symbols in a debug build. -/
theorem readImage_output {debug : Bool} {module : String} {sources : List Source}
    {snapshot : Snapshot} {o : Output}
    (h : (Linkage.compile (.forMode debug) module sources snapshot).output = some o)
    (hinterface : ((Program.ofSources module sources snapshot).interface
      (Options.forMode debug).optimization).Fits)
    (hsymbols : debug = true →
      ((Program.ofSources module sources snapshot).symbols (origins sources)).Fits) :
    Catalog.readImage o.image o.symbols =
      .ok ((Program.ofSources module sources snapshot).interface
          (Options.forMode debug).optimization,
        if debug then some ((Program.ofSources module sources snapshot).symbols (origins sources))
        else none) := by
  obtain ⟨hw, himage⟩ := compile_output h
  have hdecode := hw.decode_encode _ hinterface
  rw [himage, symbols_of_output h, Options.emitSymbols_forMode]
  cases debug with
  | false =>
    simp only [Catalog.readImage, hdecode]
    rfl
  | true =>
    simp only [Catalog.readImage, hdecode, if_true, Symbols.decode_encode (hsymbols rfl)]
    exact if_pos rfl

theorem loadImage_of_readImage (host : Host) {image : Bytes} {bs : Option Bytes} {i : Interface}
    {symbols : Option Symbols} (h : Catalog.readImage image bs = .ok (i, symbols)) :
    host.loadImage image bs = (.ok (host.link i symbols none true).1,
      (host.link i symbols none true).2) := by
  simp only [loadImage, h]

/--
A compile under a valid name gives a result, never an error, provided that the lengths in what it
emits fit their 32 bits. With a module the result comes exactly if there was something to emit; and
then the image reads as the emitted interface, which is that of the new module and of the reference
to it, the name stands for the new module, this is all that the catalog has gained, and it has debug
symbols exactly in a debug build.
-/
theorem build_loads (host : Host) (id : RegistryId) (forceDebug : Bool) (request : Request)
    (hname : isModuleName request.module = true) :
    let debug := request.debug || forceDebug
    let snapshot := (host.registry id).snapshot
    let emission := Linkage.compile (.forMode debug) request.module request.sources snapshot
    let p := Program.ofSources request.module request.sources snapshot
    let emitted := p.interface (Options.forMode debug).optimization
    let symbols := p.symbols (origins request.sources)
    (emission.output.isSome = true → emitted.Fits ∧ (debug = true → symbols.Fits)) →
    ∃ result host', host.build loadImage id forceDebug request = (.ok result, host') ∧
      result.success = emission.output.isSome ∧
      ∀ h, result.module = some h → ∃ o, emission.output = some o ∧
        Interface.decode o.image = .ok emitted ∧ emitted.name = request.module ∧
        h.interface = emitted ∧
        (host'.registry id).resolve? request.module = some h ∧
        (host'.registry id).reference? request.module = some ⟨emitted, .memory⟩ ∧
        host'.catalog.modules = host.catalog.modules ++ [h] ∧
        h.symbols = (if debug then some symbols else none) ∧ symbols.module = request.module := by
  intro debug snapshot emission p emitted symbols hfits
  cases ho : emission.output with
  | none =>
    refine ⟨⟨none, emission.diagnostics⟩, host, ?_, rfl, fun h hm => nomatch hm⟩
    simp only [build, hname, if_true]
    rw [show (Linkage.compile (.forMode (request.debug || forceDebug)) request.module
      request.sources (host.registry id).snapshot).output = none from ho]
  | some o =>
    obtain ⟨hinterface, hsymbols⟩ := hfits (Option.isSome_of_eq_some ho)
    have hmodule : p.scope.module = request.module :=
      congrArg Scope.module (compile_output ho).1.scope_eq
    let attached : Option Symbols := if debug then some symbols else none
    have hread : Catalog.readImage o.image o.symbols = .ok (emitted, attached) :=
      readImage_output ho hinterface hsymbols
    have hdecode : Interface.decode o.image = .ok emitted := readImage_ok hread
    have href : Reference.ofImage o.image = .ok ⟨emitted, .memory⟩ := by
      simp only [Reference.ofImage, hdecode]
    let k := (host.link emitted attached none true).1
    let loaded := (host.link emitted attached none true).2
    let registered := ((loaded.registry id).register request.module ⟨emitted, .memory⟩ k).2
    refine ⟨⟨some k, emission.diagnostics⟩, loaded.setRegistry registered id, ?_, rfl, ?_⟩
    · simp only [build, hname, if_true]
      rw [show (Linkage.compile (.forMode (request.debug || forceDebug)) request.module
        request.sources (host.registry id).snapshot).output = some o from ho]
      simp only [host.loadImage_of_readImage hread, href]
      rfl
    · intro h hm
      obtain rfl : k = h := Option.some_inj.1 hm
      have hentry :
          Registry.entry? ((loaded.setRegistry registered id).registry id) request.module =
            some ⟨some ⟨emitted, .memory⟩, k⟩ := by
        rw [registry_setRegistry, Registry.entry?_register, if_pos rfl]
      refine ⟨o, rfl, hdecode, hmodule, rfl, ?_, ?_, ?_, rfl, hmodule⟩
      · rw [Registry.resolve?, hentry]
        rfl
      · rw [Registry.reference?, hentry]
        rfl
      · rw [setRegistry_catalog]
        exact host.link_modules _ _ _ _

/-! ### A module with a type and a constant -/

def square : Request :=
  ⟨"Shapes", [⟨"sealed type Square \x7b side: int; \x7d const SIDES = 2 + 2;", none⟩], true⟩

theorem build_loads_square :
    isModuleName square.module = true ∧ ∃ result host' h,
      (Host.fresh .default).build loadImage (.named "drafts") false square = (.ok result, host') ∧
        result.module = some h ∧ h.name = "Shapes" ∧
        (host'.registry (.named "drafts")).resolve? "Shapes" = some h ∧
        host'.catalog.modules = [h] ∧ h.symbols.isSome = true := by
  have hname : isModuleName square.module = true := by decide +kernel
  have hinterface : ((Program.ofSources "Shapes" square.sources
      ((Host.fresh .default).registry (.named "drafts")).snapshot).interface .debug).Fits := by
    decide +kernel
  have hsymbols : ((Program.ofSources "Shapes" square.sources
      ((Host.fresh .default).registry (.named "drafts")).snapshot).symbols
        (origins square.sources)).Fits := by decide +kernel
  have hemitted : (Linkage.compile .debug "Shapes" square.sources
      ((Host.fresh .default).registry (.named "drafts")).snapshot).output.isSome = true := by
    decide +kernel
  obtain ⟨result, host', hbuild, hsuccess, hloaded⟩ := build_loads (.fresh .default)
    (.named "drafts") false square hname fun _ => ⟨hinterface, fun _ => hsymbols⟩
  obtain ⟨h, hmodule⟩ := Option.isSome_iff_exists.1 (hsuccess.trans hemitted)
  obtain ⟨o, -, -, hemittedName, hsame, hresolve, -, hmodules, hattached, -⟩ := hloaded h hmodule
  refine ⟨hname, result, host', h, hbuild, hmodule, ?_, hresolve, hmodules, ?_⟩
  · rw [Handle.name, hsame]
    exact hemittedName
  · rw [hattached]
    rfl

end Host

end Linkage
