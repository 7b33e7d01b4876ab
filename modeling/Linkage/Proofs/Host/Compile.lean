import Mathlib.Logic.Basic
import Linkage.Host.Session
import Linkage.Proofs.Build.Accepted
import Linkage.Proofs.Host.Registry

/-!
# Linkage.Proofs.Host.Compile

What the operations of a host do to it.

* `link_induction` — what telling one observer keeps, linking a module keeps.
* `Host.Refuses`, `Host.Builds` — why a build comes to nothing, and what one that succeeds does.
* `loadImage_ok`, `build_ok`, `compile_ok` — all that holds when these succeed.
* `loadImage_cases`, `build_cases`, `compile_cases` — all that these can do.

The linker's registry is not told of the modules that compiles load, since they come from memory;
it changes by being prepared and by the registration alone.
-/

namespace Linkage

/-- A loader which takes an image in or leaves the host alone, and which can read what it takes. -/
structure Loader.Atomic (load : Loader) : Prop where
  refused {host host' : Host} {image : Bytes} {symbols : Option Bytes} {e : LoadError} :
    load host image symbols = (.error e, host') → host' = host
  readable {host host' : Host} {image : Bytes} {symbols : Option Bytes} {h : Handle} :
    load host image symbols = (.ok h, host') → ∃ i, Interface.decode image = .ok i

namespace Host

/-! ## Registries -/

theorem registry_setRegistry (host : Host) (r : Registry) (id : RegistryId) :
    (host.setRegistry r id).registry id = r := by
  cases id with
  | linker => rfl
  | named name => simp [setRegistry, registry, Store.get?_put]

theorem setRegistry_catalog (host : Host) (r : Registry) (id : RegistryId) :
    (host.setRegistry r id).catalog = host.catalog := by
  cases id <;> rfl

/-! ## Linking -/

theorem link_induction {M : Host → Prop} {host : Host} {interface : Interface}
    {symbols : Option Symbols} {location : Option String} {dynamic : Bool}
    (hstart : M { host with
      catalog := (host.catalog.link interface symbols location dynamic).2 })
    (hstep : ∀ host' o, M host' →
      M (host'.tell (host.catalog.link interface symbols location dynamic).1 o)) :
    M (host.link interface symbols location dynamic).2 := by
  unfold link
  dsimp only
  generalize (host.catalog.link interface symbols location dynamic).2.observers = os
  revert hstart
  generalize ({ host with
    catalog := (host.catalog.link interface symbols location dynamic).2 } : Host) = start
  intro hstart
  induction os generalizing start with
  | nil => exact hstart
  | cons o os ih => exact ih _ (hstep _ o hstart)

theorem tell_files (host : Host) (h : Handle) (o : Observer) :
    (host.tell h o).files = host.files := by
  cases o <;> rfl

theorem tell_catalog (host : Host) (h : Handle) (o : Observer) :
    (host.tell h o).catalog = host.catalog := by
  cases o <;> rfl

theorem link_files (host : Host) (interface : Interface) (symbols : Option Symbols)
    (location : Option String) (dynamic : Bool) :
    (host.link interface symbols location dynamic).2.files = host.files :=
  link_induction (M := fun host' => host'.files = host.files) rfl
    fun host' o h => (host'.tell_files _ o).trans h

theorem link_modules (host : Host) (interface : Interface) (symbols : Option Symbols)
    (location : Option String) (dynamic : Bool) :
    (host.link interface symbols location dynamic).2.catalog.modules = host.catalog.modules ++
      [(host.link interface symbols location dynamic).1] :=
  link_induction
    (M := fun host' => host'.catalog.modules = host.catalog.modules ++
      [(host.link interface symbols location dynamic).1])
    rfl fun host' o h => by rw [tell_catalog, h]

theorem link_linker_of_dynamic (host : Host) (interface : Interface) (symbols : Option Symbols)
    (location : Option String) :
    (host.link interface symbols location true).2.linker = host.linker := by
  refine link_induction (M := fun host' => host'.linker = host.linker) rfl fun host' o h => ?_
  rw [← h]
  cases o with
  | linker =>
    unfold tell setRegistry registry
    dsimp only
    rw [Registry.observe_dynamic rfl]
  | registry name => rfl
  | recorder name => rfl

/-! ## Loading -/

theorem loadImage_error {host host' : Host} {image : Bytes} {symbols : Option Bytes}
    {e : LoadError} (h : host.loadImage image symbols = (.error e, host')) : host' = host := by
  unfold loadImage at h
  split at h
  · cases h
    rfl
  · cases h

theorem readImage_ok {image : Bytes} {symbols : Option Bytes} {i : Interface} {s : Option Symbols}
    (h : Catalog.readImage image symbols = .ok (i, s)) : Interface.decode image = .ok i := by
  unfold Catalog.readImage at h
  split at h
  · cases h
  · rename_i j hj
    split at h
    · cases h
      exact hj
    · split at h
      · cases h
      · split at h
        · cases h
          exact hj
        · cases h

/-- A module from an image, and the host it was loaded into. -/
structure Loads (host : Host) (image : Bytes) (h : Handle) (host' : Host) : Prop where
  interface : Interface.decode image = .ok h.interface
  location : h.location = none
  files : host'.files = host.files
  modules : host'.catalog.modules = host.catalog.modules ++ [h]
  linker : host'.linker = host.linker

theorem loadImage_ok {host host' : Host} {image : Bytes} {symbols : Option Bytes} {h : Handle}
    (hl : host.loadImage image symbols = (.ok h, host')) : host.Loads image h host' := by
  unfold loadImage at hl
  split at hl
  · cases hl
  · rename_i i s hi
    cases hl
    exact ⟨readImage_ok hi, rfl, host.link_files i s none true, host.link_modules i s none true,
      host.link_linker_of_dynamic i s none⟩

/-- What was loaded from an image can be referred to. -/
theorem Loads.ofImage {host host' : Host} {image : Bytes} {h : Handle}
    (hl : host.Loads image h host') : Reference.ofImage image = .ok ⟨h.interface, .memory⟩ := by
  simp only [Reference.ofImage, hl.interface]

theorem loadImage_cases (host : Host) (image : Bytes) (symbols : Option Bytes) :
    (host.loadImage image symbols).2 = host ∨
      ∃ h, host.Loads image h (host.loadImage image symbols).2 := by
  generalize hl : host.loadImage image symbols = outcome
  obtain ⟨result, host'⟩ := outcome
  cases result with
  | error e => exact .inl (loadImage_error hl)
  | ok h => exact .inr ⟨h, loadImage_ok hl⟩

theorem atomic_loadImage : Loader.Atomic loadImage :=
  ⟨loadImage_error, fun h => ⟨_, (loadImage_ok h).interface⟩⟩

/-! ## Compiling -/

/-- What a compile makes of a request, before anything is loaded. -/
def emission (host : Host) (id : RegistryId) (forceDebug : Bool) (request : Request) : Emission :=
  Linkage.compile (.forMode (request.debug || forceDebug)) request.module request.sources
    (host.registry id).snapshot

/-- What stands against a request. -/
inductive Refuses (load : Loader) (id : RegistryId) (forceDebug : Bool) (host : Host)
    (request : Request) : Prop where
  | name (h : isModuleName request.module = false)
  | sources {d : Diagnostic} (hd : d ∈ (host.emission id forceDebug request).diagnostics)
      (h : d.isError = true)
  | image {o : Output} {e : LoadError}
      (ho : (host.emission id forceDebug request).output = some o)
      (h : (load host o.image o.symbols).1 = .error e)

/-- A request goes through: what is emitted for it is loaded, described and registered. -/
structure Builds (load : Loader) (id : RegistryId) (forceDebug : Bool) (host : Host)
    (request : Request) (h : Handle) (host' : Host) : Prop where
  name : isModuleName request.module = true
  output : ∃ o loaded reference, (host.emission id forceDebug request).output = some o ∧
    load host o.image o.symbols = (.ok h, loaded) ∧ Reference.ofImage o.image = .ok reference ∧
    host' = loaded.setRegistry
      ((loaded.registry id).register request.module reference h).2 id

/-- All that a build can do. -/
theorem build_cases {load : Loader} (hload : load.Atomic) (id : RegistryId) (forceDebug : Bool)
    (host : Host) (request : Request) :
    (host.Refuses load id forceDebug request ∧
      (∀ r, (host.build load id forceDebug request).1 = .ok r → r.module = none) ∧
      (host.build load id forceDebug request).2 = host) ∨
    ∃ h, host.Builds load id forceDebug request h (host.build load id forceDebug request).2 ∧
      (host.build load id forceDebug request).1 =
        .ok ⟨some h, (host.emission id forceDebug request).diagnostics⟩ := by
  unfold build
  dsimp only
  split
  · rename_i hname
    split
    · rename_i hnone
      obtain ⟨d, hd, herror⟩ := output_eq_none_iff.1 hnone
      refine .inl ⟨.sources hd herror, fun r hr => ?_, rfl⟩
      cases hr
      rfl
    · rename_i o ho
      split
      · rename_i e loaded he
        exact .inl ⟨.image ho (congrArg Prod.fst he), fun r hr => (nomatch hr), hload.refused he⟩
      · rename_i h loaded hh
        obtain ⟨i, hi⟩ := hload.readable hh
        have hreference : Reference.ofImage o.image = .ok ⟨i, .memory⟩ := by
          simp only [Reference.ofImage, hi]
        rw [hreference]
        exact .inr ⟨h, ⟨hname, o, loaded, _, ho, hh, hreference, rfl⟩, rfl⟩
  · rename_i hname
    exact .inl ⟨.name (Bool.eq_false_iff.2 hname), fun r hr => (nomatch hr), rfl⟩

/-- Short of success, a build leaves everything as it was: whatever is loaded is registered too. -/
theorem build_of_no_module {load : Loader} (hload : load.Atomic) {host : Host} {id : RegistryId}
    {forceDebug : Bool} {request : Request}
    (hm : ∀ r, (host.build load id forceDebug request).1 = .ok r → r.module = none) :
    (host.build load id forceDebug request).2 = host := by
  rcases build_cases hload id forceDebug host request with ⟨-, -, heq⟩ | ⟨h, -, hresult⟩
  · exact heq
  · cases hm _ hresult

/--
A successful compile of a request: what the linker's registry can refer to gives an output, whose
image is loaded, and the registry's entry of the name becomes the new module.
-/
structure Compiles (host : Host) (forceDebug : Bool) (request : Request) (h : Handle)
    (host' : Host) : Prop where
  output : ∃ o loaded, (Linkage.compile (.forMode (request.debug || forceDebug)) request.module
    request.sources host.linker.registry.snapshot).output = some o ∧
    host.Loads o.image h loaded ∧ host'.files = loaded.files ∧ host'.catalog = loaded.catalog
  registry : host'.linker.registry =
    (host.linker.registry.register request.module ⟨h.interface, .memory⟩ h).2

theorem Builds.compiles {host host' : Host} {forceDebug : Bool} {request : Request} {h : Handle}
    (hb : host.Builds loadImage .linker forceDebug request h host') :
    host.Compiles forceDebug request h host' := by
  obtain ⟨o, loaded, reference, ho, hl, hreference, rfl⟩ := hb.output
  have hloads := loadImage_ok hl
  obtain rfl := Except.ok.inj (hreference.symm.trans hloads.ofImage)
  have hlinker : loaded.registry .linker = host.linker.registry :=
    congrArg Linker.registry hloads.linker
  exact ⟨⟨o, loaded, ho, hloads, rfl, rfl⟩, by rw [← hlinker]; rfl⟩

theorem build_ok {host host' : Host} {forceDebug : Bool} {request : Request} {result : BuildResult}
    {h : Handle}
    (hb : host.build loadImage .linker forceDebug request = (.ok result, host'))
    (hm : result.module = some h) : host.Compiles forceDebug request h host' := by
  rcases build_cases atomic_loadImage .linker forceDebug host request with
    ⟨-, hnone, -⟩ | ⟨k, hk, hresult⟩
  · rw [hb] at hnone
    cases hm.symm.trans (hnone result rfl)
  · rw [hb] at hk hresult
    obtain rfl := Except.ok.inj hresult
    obtain rfl : k = h := Option.some_inj.1 hm
    exact hk.compiles

theorem Compiles.name {host host' : Host} {forceDebug : Bool} {request : Request} {h : Handle}
    (hc : host.Compiles forceDebug request h host') (hfits : Text.Fits request.module) :
    h.name = request.module := by
  obtain ⟨o, loaded, ho, hloads, -⟩ := hc.output
  have hdecode := hloads.interface
  rw [(compile_output ho).2] at hdecode
  exact Interface.name_of_decode_encode hfits hdecode

theorem Compiles.wellFormed {host host' : Host} {forceDebug : Bool} {request : Request}
    {h : Handle} (hc : host.Compiles forceDebug request h host') :
    WellFormed request.module request.sources host.linker.registry.snapshot := by
  obtain ⟨o, loaded, ho, -⟩ := hc.output
  exact (compile_output ho).1

/-- The new module has the interface that was emitted, provided that it can be written. -/
theorem Compiles.interface {host host' : Host} {forceDebug : Bool} {request : Request} {h : Handle}
    (hc : host.Compiles forceDebug request h host')
    (hfits : ((Program.ofSources request.module request.sources
      host.linker.registry.snapshot).interface
        (Options.forMode (request.debug || forceDebug)).optimization).Fits) :
    h.interface = (Program.ofSources request.module request.sources
      host.linker.registry.snapshot).interface
        (Options.forMode (request.debug || forceDebug)).optimization := by
  obtain ⟨o, loaded, ho, hloads, -⟩ := hc.output
  obtain ⟨hw, himage⟩ := compile_output ho
  have hdecode := hloads.interface
  rw [himage] at hdecode
  exact Except.ok.inj (hdecode.symm.trans (hw.decode_encode _ hfits))

/-- Registering a module changes nothing for the other names. -/
theorem Compiles.resolve?_eq {host host' : Host} {forceDebug : Bool} {request : Request}
    {h : Handle} (hc : host.Compiles forceDebug request h host') (name : String) :
    host'.linker.registry.resolve? name =
      if name = request.module then some h else host.linker.registry.resolve? name := by
  rw [Registry.resolve?, hc.registry, Registry.entry?_register]
  split
  · rfl
  · rfl

/-! ## The linker -/

theorem attachLinker_eq (host : Host) :
    host.attachLinker.files = host.files ∧
      host.attachLinker.catalog.modules = host.catalog.modules ∧
      host.attachLinker.linker.registry = host.linker.registry ∧
      host.attachLinker.linker.config = host.linker.config := by
  unfold attachLinker
  split
  · exact ⟨rfl, rfl, rfl, rfl⟩
  · exact ⟨rfl, rfl, rfl, rfl⟩

/-- Preparing the linker at most enrolls what is loaded. -/
theorem prepare_eq (host : Host) :
    host.prepare.2.files = host.files ∧ host.prepare.2.catalog.modules = host.catalog.modules ∧
      host.prepare.2.linker.config = host.linker.config ∧
      (host.prepare.2.linker.registry = host.linker.registry ∨
        host.prepare.2.linker.registry =
          (host.linker.registry.enrollAll host.files host.catalog.modules).2) := by
  obtain ⟨hfiles, hmodules, hregistry, hconfig⟩ := host.attachLinker_eq
  unfold prepare
  split
  · exact ⟨rfl, rfl, rfl, .inl rfl⟩
  · rw [← hfiles, ← hmodules, ← hregistry, ← hconfig]
    unfold initRegistry registry setRegistry
    dsimp only
    split
    · rename_i hinit
      obtain rfl := (Prod.mk.inj hinit).2
      exact ⟨rfl, rfl, rfl, .inr rfl⟩
    · rename_i hinit
      obtain rfl := (Prod.mk.inj hinit).2
      exact ⟨rfl, rfl, rfl, .inr rfl⟩

theorem compile_ok {host host' : Host} {request : Request} {result : BuildResult} {h : Handle}
    (hc : host.compile request = (.ok result, host')) (hm : result.module = some h) :
    host.prepare.2.Compiles host.linker.config.forceDebug request h host' := by
  obtain ⟨-, -, hconfig, -⟩ := host.prepare_eq
  unfold compile at hc
  split at hc
  · cases hc
  · rename_i prepared hp
    rw [hp] at hconfig ⊢
    rw [← hconfig]
    exact build_ok hc hm

/-- The module of a successful compile. -/
def compiled? (host : Host) (request : Request) : Option Handle :=
  match (host.compile request).1 with
  | .ok r => r.module
  | .error _ => none

theorem compile_of_compiled? {host : Host} {request : Request} {h : Handle}
    (hh : host.compiled? request = some h) :
    ∃ result, host.compile request = (.ok result, (host.compile request).2) ∧
      result.module = some h := by
  unfold compiled? at hh
  split at hh
  · rename_i r hr
    exact ⟨r, Prod.ext hr rfl, hh⟩
  · cases hh

/-- All that a compile can do to a host, whatever its outcome. -/
theorem compile_cases (host : Host) (request : Request) :
    (host.compile request).2 = host.prepare.2 ∨
      ∃ h, host.prepare.2.Compiles host.prepare.2.linker.config.forceDebug request h
        (host.compile request).2 := by
  unfold compile
  split
  · rename_i e prepared hp
    exact .inl (by rw [hp])
  · rename_i prepared hp
    rw [hp]
    rcases build_cases atomic_loadImage .linker prepared.linker.config.forceDebug prepared
      request with ⟨-, -, heq⟩ | ⟨h, hb, -⟩
    · exact .inl heq
    · exact .inr ⟨h, hb.compiles⟩

end Host

end Linkage
