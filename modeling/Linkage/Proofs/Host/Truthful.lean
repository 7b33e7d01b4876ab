import Linkage.Proofs.Host.Compile

/-!
# Linkage.Proofs.Host.Truthful

Hosts where what compiles see of a module is what the module is.

* `Files.Back` — whatever can be read from the file behind a module is about that interface.
* `Host.Steady` — a history that only adds modules with such files and leaves the files alone.
* `Host.Truthful` — each entry of the linker's registry is under its module's name, and its
  reference describes its module.
* `Truthful.run` — a steady history keeps a host truthful, event by event.
-/

namespace Linkage

def Files.Back (files : Files) (interface : Interface) (location : Option String) : Prop :=
  ∀ path r, location = some path → Reference.ofFile files path = .ok r → r.interface = interface

structure Registry.Entry.Truthful (name : String) (e : Registry.Entry) : Prop where
  name : e.handle.name = name
  reference : ∀ r, e.reference = some r → r.interface = e.handle.interface
  shallow : ∀ r, e.reference = some r → r.interface.Shallow

namespace Host

structure Truthful (host : Host) : Prop where
  registry : host.linker.registry.All Registry.Entry.Truthful
  modules : ∀ h ∈ host.catalog.modules, host.files.Back h.interface h.location

/-- No module has this file behind it. -/
def Spare (host : Host) (path : String) : Prop :=
  ∀ h ∈ host.catalog.modules, h.location ≠ some path

end Host

def Event.Steady (host : Host) : Event → Prop
  | .writeFile path _ => host.Spare path
  | .makeDirectory path => host.Spare path
  | .removeFile path => host.Spare path
  | .addNative interface location => host.files.Back interface location
  | .loadImage _ _ => True
  | .prepare => True
  | .compile request => Text.Fits request.module

/-- Every event is steady when it happens. -/
def Host.Steady (host : Host) : List Event → Prop
  | [] => True
  | e :: es => e.Steady host ∧ (host.after e).Steady es

/-! ## References -/

theorem Reference.shallow_of_ofFile {files : Files} {path : String} {r : Reference}
    (h : Reference.ofFile files path = .ok r) : r.interface.Shallow := by
  unfold Reference.ofFile at h
  split at h
  · cases h
  · split at h
    · cases h
    · rename_i i hi
      cases h
      exact (Interface.sound_of_decode hi).2

theorem Files.Back.truthful {files : Files} {h : Handle} {reference : Option Reference}
    (hb : files.Back h.interface h.location)
    (hr : Registry.hostReference files h = .ok reference) :
    Registry.Entry.Truthful h.name ⟨reference, h⟩ := by
  unfold Registry.hostReference at hr
  split at hr
  · cases hr
    exact ⟨rfl, fun _ he => (nomatch he), fun _ he => (nomatch he)⟩
  · rename_i path hpath
    split at hr
    · cases hr
      exact ⟨rfl, fun _ he => (nomatch he), fun _ he => (nomatch he)⟩
    · cases hr
    · rename_i r hfile
      split at hr
      · cases hr
        refine ⟨rfl, fun s hs => ?_, fun s hs => ?_⟩
        · cases hs
          exact hb path r hpath hfile
        · cases hs
          exact Reference.shallow_of_ofFile hfile
      · cases hr

/-- Files at other places do not matter. -/
theorem Files.Back.congr {files files' : Files} {interface : Interface} {location : Option String}
    (hb : files.Back interface location)
    (h : ∀ path, location = some path → files'.get? path = files.get? path) :
    files'.Back interface location := by
  intro path r hpath hr
  refine hb path r hpath ?_
  rw [← hr]
  simp only [Reference.ofFile, Files.read, h path hpath]

namespace Host
namespace Truthful

variable {host : Host}

/-! ## Operations -/

theorem fresh (config : Config) : (Host.fresh config).Truthful :=
  ⟨Registry.all_empty, fun _ h => nomatch h⟩

theorem setFiles (h : host.Truthful) {path : String} (hs : host.Spare path) {files : Files}
    (hf : ∀ other, other ≠ path → files.get? other = host.files.get? other) :
    ({ host with files := files } : Host).Truthful := by
  refine ⟨h.registry, fun k hk => (h.modules k hk).congr fun other hother => hf other ?_⟩
  rintro rfl
  exact hs k hk hother

theorem link (h : host.Truthful) {interface : Interface} {location : Option String}
    (hb : host.files.Back interface location) (symbols : Option Symbols) (dynamic : Bool) :
    (host.link interface symbols location dynamic).2.Truthful := by
  have hregistry : (host.link interface symbols location dynamic).2.files = host.files ∧
      (host.link interface symbols location dynamic).2.linker.registry.All
        Registry.Entry.Truthful := by
    refine link_induction (M := fun host' => host'.files = host.files ∧
      host'.linker.registry.All Registry.Entry.Truthful) ⟨rfl, h.registry⟩ ?_
    intro host' o ⟨hfiles, hall⟩
    refine ⟨(tell_files host' _ o).trans hfiles, ?_⟩
    cases o with
    | linker => exact hall.observe fun reference hr => Files.Back.truthful (hfiles ▸ hb) hr
    | registry name => exact hall
    | recorder name => exact hall
  refine ⟨hregistry.2, fun k hk => ?_⟩
  rw [link_files]
  rw [link_modules] at hk
  rcases List.mem_append.1 hk with hk | hk
  · exact h.modules k hk
  · obtain rfl := List.mem_singleton.1 hk
    exact hb

theorem loads (h : host.Truthful) {image : Bytes} {k : Handle} {host' : Host}
    (hl : host.Loads image k host') : host'.Truthful := by
  refine ⟨hl.linker ▸ h.registry, fun l hl' => ?_⟩
  rw [hl.files]
  rw [hl.modules] at hl'
  rcases List.mem_append.1 hl' with hl' | hl'
  · exact h.modules l hl'
  · obtain rfl := List.mem_singleton.1 hl'
    intro path r hpath
    rw [hl.location] at hpath
    cases hpath

theorem loadImage (h : host.Truthful) (image : Bytes) (symbols : Option Bytes) :
    (host.loadImage image symbols).2.Truthful := by
  rcases host.loadImage_cases image symbols with heq | ⟨k, hl⟩
  · rw [heq]
    exact h
  · exact h.loads hl

theorem prepare (h : host.Truthful) : host.prepare.2.Truthful := by
  obtain ⟨hfiles, hmodules, -, hregistry⟩ := host.prepare_eq
  refine ⟨?_, by rw [hfiles, hmodules]; exact h.modules⟩
  rcases hregistry with hregistry | hregistry
  · rw [hregistry]
    exact h.registry
  · rw [hregistry]
    exact h.registry.enrollAll fun k hk reference hr => (h.modules k hk).truthful hr

/-- The new entry has the image's own interface on both sides. -/
theorem compiles (h : host.Truthful) {forceDebug : Bool} {request : Request}
    (hfits : Text.Fits request.module) {k : Handle} {host' : Host}
    (hc : host.Compiles forceDebug request k host') : host'.Truthful := by
  obtain ⟨o, loaded, -, hloads, hfiles, hcatalog⟩ := hc.output
  have hentry : Registry.Entry.Truthful request.module
      ⟨some ⟨k.interface, .memory⟩, k⟩ := by
    refine ⟨hc.name hfits, fun r hr => ?_, fun r hr => ?_⟩
    · cases hr
      rfl
    · cases hr
      exact (Interface.sound_of_decode hloads.interface).2
  refine ⟨hc.registry ▸ h.registry.register hentry, ?_⟩
  rw [hfiles, hcatalog]
  exact (h.loads hloads).modules

theorem compile (h : host.Truthful) {request : Request} (hfits : Text.Fits request.module) :
    (host.compile request).2.Truthful := by
  rcases host.compile_cases request with heq | ⟨k, hc⟩
  · rw [heq]
    exact h.prepare
  · exact h.prepare.compiles hfits hc

/-! ## Histories -/

theorem after (h : host.Truthful) {e : Event} (he : e.Steady host) : (host.after e).Truthful := by
  cases e with
  | writeFile path content =>
    refine h.setFiles he fun other hne => ?_
    rw [Store.get?_put, if_neg hne]
  | makeDirectory path =>
    refine h.setFiles he fun other hne => ?_
    rw [Store.get?_put, if_neg hne]
  | removeFile path =>
    refine h.setFiles he fun other hne => ?_
    rw [Store.get?_erase, if_neg hne]
  | addNative interface location => exact h.link he none false
  | loadImage image symbols => exact h.loadImage image symbols
  | prepare => exact h.prepare
  | compile request => exact h.compile he

theorem run (h : host.Truthful) {history : List Event} (hs : host.Steady history) :
    (host.run history).Truthful := by
  induction history generalizing host with
  | nil => exact h
  | cons e history ih => exact ih (h.after hs.1) hs.2

end Truthful
end Host

end Linkage
