import Linkage.Proofs.Host.Compile

/-!
# Linkage.Proofs.Host.Coherence

The registry of the linker over a whole history.

* `Host.Coherent` — every name has one entry, whose module is loaded and is called by that name, and
  so is the module that its reference describes.
* `Host.keeps_after` — no event takes an entry away, or its reference.
* `registry_coherent` — both of every history, and what compiles see of such a registry.

Entries come from what is loaded before the first compile, from what the linker is told of, and from
compiles. The first two keep the entry that a name has, the third replaces it.
-/

namespace Linkage

structure Registry.Entry.Coherent (modules : List Handle) (name : String) (e : Registry.Entry) :
    Prop where
  loaded : e.handle ∈ modules
  reference : ∀ r, e.reference = some r → r.name = name
  name : e.handle.name = name

structure Host.Coherent (host : Host) : Prop where
  proper : host.linker.registry.Proper
  entries : host.linker.registry.All (Registry.Entry.Coherent host.catalog.modules)

/--
A name that is compiled can be written into an image. Of a longer one the length is written modulo
2^32, so that the image can be read under another name.
-/
def Event.Fits : Event → Prop
  | .compile request => Text.Fits request.module
  | _ => True

/-! ## References -/

namespace Registry

theorem name_of_hostReference {files : Files} {h : Handle} {r : Reference}
    (hr : hostReference files h = .ok (some r)) : r.name = h.name := by
  unfold hostReference at hr
  split at hr
  · cases hr
  · split at hr
    · cases hr
    · cases hr
    · split at hr
      · rename_i hname
        cases hr
        exact hname
      · cases hr

theorem Entry.Coherent.of_host {files : Files} {h : Handle} {reference : Option Reference}
    {modules : List Handle} (hr : hostReference files h = .ok reference) (hh : h ∈ modules) :
    Entry.Coherent modules h.name ⟨reference, h⟩ := by
  refine ⟨hh, fun r hr' => ?_, rfl⟩
  simp only at hr'
  subst hr'
  exact name_of_hostReference hr

theorem All.loaded_append {r : Registry} {modules : List Handle}
    (h : r.All (Entry.Coherent modules)) (more : List Handle) :
    r.All (Entry.Coherent (modules ++ more)) := by
  intro name e he
  obtain ⟨hloaded, href, hname⟩ := h name e he
  exact ⟨List.mem_append_left more hloaded, href, hname⟩

end Registry

namespace Host
namespace Coherent

variable {host : Host}

/-! ## Operations -/

theorem fresh (config : Config) : (Host.fresh config).Coherent :=
  ⟨Registry.proper_empty, Registry.all_empty⟩

theorem link (h : host.Coherent) (interface : Interface) (symbols : Option Symbols)
    (location : Option String) (dynamic : Bool) :
    (host.link interface symbols location dynamic).2.Coherent := by
  let k := (host.link interface symbols location dynamic).1
  have hregistry : (host.link interface symbols location dynamic).2.linker.registry.Proper ∧
      (host.link interface symbols location dynamic).2.linker.registry.All
        (Registry.Entry.Coherent (host.catalog.modules ++ [k])) := by
    refine link_induction (M := fun host' => host'.linker.registry.Proper ∧
      host'.linker.registry.All (Registry.Entry.Coherent (host.catalog.modules ++ [k]))) ?_ ?_
    · exact ⟨h.proper, h.entries.loaded_append [k]⟩
    · intro host' o ⟨hproper, hall⟩
      cases o with
      | linker =>
        exact ⟨hproper.observe _ _, hall.observe fun reference hr =>
          .of_host hr (List.mem_append_right _ List.mem_cons_self)⟩
      | registry name => exact ⟨hproper, hall⟩
      | recorder name => exact ⟨hproper, hall⟩
  refine ⟨hregistry.1, ?_⟩
  rw [link_modules]
  exact hregistry.2

theorem loads (h : host.Coherent) {image : Bytes} {k : Handle} {host' : Host}
    (hl : host.Loads image k host') : host'.Coherent := by
  refine ⟨?_, ?_⟩
  · rw [hl.linker]
    exact h.proper
  · rw [hl.linker, hl.modules]
    exact h.entries.loaded_append [k]

theorem loadImage (h : host.Coherent) (image : Bytes) (symbols : Option Bytes) :
    (host.loadImage image symbols).2.Coherent := by
  rcases host.loadImage_cases image symbols with heq | ⟨k, hl⟩
  · rw [heq]
    exact h
  · exact h.loads hl

/-- Whether or not everything could be enrolled. -/
theorem prepare (h : host.Coherent) : host.prepare.2.Coherent := by
  obtain ⟨-, hmodules, -, hregistry | hregistry⟩ := host.prepare_eq
  · refine ⟨?_, ?_⟩
    · rw [hregistry]
      exact h.proper
    · rw [hregistry, hmodules]
      exact h.entries
  · refine ⟨?_, ?_⟩
    · rw [hregistry]
      exact h.proper.enrollAll _ _
    · rw [hregistry, hmodules]
      exact h.entries.enrollAll fun k hk reference hr => .of_host hr hk

theorem compiles (h : host.Coherent) {forceDebug : Bool} {request : Request}
    (hfits : Text.Fits request.module) {k : Handle} {host' : Host}
    (hc : host.Compiles forceDebug request k host') : host'.Coherent := by
  obtain ⟨o, loaded, -, hloads, -, hcatalog⟩ := hc.output
  have hname := hc.name hfits
  refine ⟨?_, ?_⟩
  · rw [hc.registry]
    exact h.proper.register _ _ _
  · rw [hc.registry, hcatalog, hloads.modules]
    refine (h.entries.loaded_append [k]).register ⟨?_, fun r hr => ?_, hname⟩
    · exact List.mem_append_right _ List.mem_cons_self
    · cases hr
      exact hname

theorem compile (h : host.Coherent) {request : Request} (hfits : Text.Fits request.module) :
    (host.compile request).2.Coherent := by
  rcases host.compile_cases request with heq | ⟨k, hc⟩
  · rw [heq]
    exact h.prepare
  · exact h.prepare.compiles hfits hc

/-! ## Histories -/

theorem after (h : host.Coherent) {e : Event} (he : e.Fits) : (host.after e).Coherent := by
  cases e with
  | writeFile path content => exact ⟨h.proper, h.entries⟩
  | makeDirectory path => exact ⟨h.proper, h.entries⟩
  | removeFile path => exact ⟨h.proper, h.entries⟩
  | addNative interface location => exact h.link interface none location false
  | loadImage image symbols => exact h.loadImage image symbols
  | prepare => exact h.prepare
  | compile request => exact h.compile he

theorem run (h : host.Coherent) {history : List Event} (hfits : ∀ e ∈ history, e.Fits) :
    (host.run history).Coherent := by
  induction history generalizing host with
  | nil => exact h
  | cons e history ih =>
    have he := h.after (hfits e List.mem_cons_self)
    exact ih he fun e' he' => hfits e' (List.mem_cons_of_mem e he')

end Coherent

/-! ## Nothing is lost -/

theorem keeps_link (host : Host) (interface : Interface) (symbols : Option Symbols)
    (location : Option String) (dynamic : Bool) :
    host.linker.registry.Keeps
      (host.link interface symbols location dynamic).2.linker.registry := by
  refine link_induction (M := fun host' => host.linker.registry.Keeps host'.linker.registry)
    (.refl _) ?_
  intro host' o h
  cases o with
  | linker => exact h.trans (Registry.keeps_observe _ _ _)
  | registry name => exact h
  | recorder name => exact h

theorem keeps_prepare (host : Host) :
    host.linker.registry.Keeps host.prepare.2.linker.registry := by
  obtain ⟨-, -, -, hregistry | hregistry⟩ := host.prepare_eq
  · rw [hregistry]
    exact .refl _
  · rw [hregistry]
    exact Registry.keeps_enrollAll _ _ _

theorem keeps_compile (host : Host) (request : Request) :
    host.linker.registry.Keeps (host.compile request).2.linker.registry := by
  refine host.keeps_prepare.trans ?_
  rcases host.compile_cases request with heq | ⟨k, hc⟩
  · rw [heq]
    exact .refl _
  · rw [hc.registry]
    exact Registry.keeps_register _ _ _ _

theorem keeps_after (host : Host) (e : Event) :
    host.linker.registry.Keeps (host.after e).linker.registry := by
  cases e with
  | writeFile path content => exact .refl _
  | makeDirectory path => exact .refl _
  | removeFile path => exact .refl _
  | addNative interface location => exact host.keeps_link interface none location false
  | loadImage image symbols =>
    simp only [after]
    rcases host.loadImage_cases image symbols with heq | ⟨k, hl⟩
    · rw [heq]
      exact .refl _
    · rw [hl.linker]
      exact .refl _
  | prepare => exact host.keeps_prepare
  | compile request => exact host.keeps_compile request

end Host

/-! ## What compiles see -/

namespace Registry

variable {r : Registry} {modules : List Handle}

/-- The references of the entries with these names, in this order. -/
def references (r : Registry) (names : List String) : List Reference := names.filterMap r.reference?

theorem name_of_reference? (h : r.All (Entry.Coherent modules)) {name : String} {x : Reference}
    (hx : r.reference? name = some x) : x.name = name := by
  obtain ⟨e, he, href⟩ := Option.bind_eq_some_iff.1 hx
  exact (h name e he).reference x href

theorem distinct_references (h : r.All (Entry.Coherent modules)) {names : List String}
    (hn : names.Nodup) : Snapshot.Distinct (r.references names) := by
  refine List.pairwise_filterMap.2 (hn.imp ?_)
  intro a b hab x hx y hy hxy
  rw [name_of_reference? h hx, name_of_reference? h hy] at hxy
  exact hab hxy

theorem get?_snapshot (h : r.All (Entry.Coherent modules)) (name : String) :
    r.snapshot.get? name = r.reference? name := by
  have hname : ∀ x ∈ r.references r.names, x.name = name → r.reference? name = some x := by
    intro x hx hxn
    obtain ⟨n, -, hn⟩ := List.mem_filterMap.1 hx
    rw [← hxn, name_of_reference? h hn]
    exact hn
  rw [snapshot, Snapshot.get?_ofList]
  cases hr : r.reference? name with
  | none =>
    refine List.find?_eq_none.2 fun x hx hxn => ?_
    have := hname x hx (beq_iff_eq.1 hxn)
    rw [hr] at this
    cases this
  | some x =>
    have hmem : x ∈ r.references r.names := by
      obtain ⟨e, he, -⟩ := Option.bind_eq_some_iff.1 hr
      exact List.mem_filterMap.2 ⟨name, Store.mem_names he, hr⟩
    have hsome : ((r.references r.names).find? (·.name == name)).isSome = true :=
      List.find?_isSome.2 ⟨x, hmem, by simp [name_of_reference? h hr]⟩
    obtain ⟨y, hy⟩ := Option.isSome_iff_exists.1 hsome
    have hyn : y.name = name :=
      beq_iff_eq.1 (List.find?_some (p := fun r : Reference => r.name == name) hy)
    have := hname y (List.mem_of_find?_eq_some hy) hyn
    rw [hr] at this
    exact hy.trans this.symm

end Registry

/--
After any history the linker's registry has under each name a loaded module of that name, and a
reference only to a module of that name. So a compile sees exactly the references of the entries,
each one once and found under the name of its entry, in whatever order the entries are gone
through. Whatever happens next, no entry goes and none loses its reference.
-/
theorem registry_coherent (config : Config) (history : List Event)
    (hfits : ∀ e ∈ history, e.Fits) :
    let host := (Host.fresh config).run history
    let registry := host.linker.registry
    (∀ name e, registry.entry? name = some e → e.handle.name = name ∧
      e.handle ∈ host.catalog.modules ∧ ∀ r, e.reference = some r → r.name = name) ∧
    (∀ names, names.Perm registry.names →
      Snapshot.ofList (registry.references names) = registry.snapshot ∧
        registry.snapshot.references.Perm (registry.references names)) ∧
    (∀ name, registry.snapshot.get? name = registry.reference? name) ∧
    ∀ event name e, registry.entry? name = some e →
      ∃ e', Registry.entry? (host.after event).linker.registry name = some e' ∧
        (e.reference.isSome = true → e'.reference.isSome = true) := by
  intro host registry
  have h : host.Coherent := (Host.Coherent.fresh config).run hfits
  refine ⟨fun name e he => ?_, fun names hnames => ?_, Registry.get?_snapshot h.entries, ?_⟩
  · obtain ⟨hloaded, href, hname⟩ := h.entries name e he
    exact ⟨hname, hloaded, href⟩
  · have hdistinct := Registry.distinct_references h.entries h.proper.nodup_names
    have hperm : (registry.references names).Perm (registry.references registry.names) :=
      hnames.filterMap _
    exact ⟨Snapshot.ofList_eq_of_perm hdistinct hperm,
      (Snapshot.perm_ofList hdistinct).trans hperm.symm⟩
  · intro event name e he
    exact host.keeps_after event name e he

/-! ### A module of the host that is compiled again -/

def recompiled : List Event :=
  [.addNative ⟨"Core", .release, [], [], []⟩ (some "core.mlnk"),
    .addNative ⟨"Runtime", .release, [], [], []⟩ none,
    .compile ⟨"Core", [⟨"const MAX = 10;", none⟩], false⟩]

/-- The file behind the first `Core` is missing, so it can be referred to only since the compile. -/
theorem registry_coherent_recompiled :
    (∀ e ∈ recompiled, e.Fits) ∧
      let host := (Host.fresh .default).run recompiled
      host.linker.registry.snapshot.get? "Runtime" = none ∧
        ∃ e, host.linker.registry.entry? "Core" = some e ∧ e.handle.name = "Core" ∧
          e.handle ∈ host.catalog.modules ∧ e.handle.dynamic = true ∧ e.reference.isSome = true ∧
          host.linker.registry.snapshot.get? "Core" = e.reference := by
  have hfits : ∀ e ∈ recompiled, e.Fits := by
    intro e he
    simp only [recompiled, List.mem_cons, List.not_mem_nil, or_false] at he
    rcases he with rfl | rfl | rfl
    · trivial
    · trivial
    · show Text.Fits "Core"
      decide +kernel
  obtain ⟨hentries, -, hget, -⟩ := registry_coherent .default recompiled hfits
  have hcore : (Registry.entry? ((Host.fresh .default).run recompiled).linker.registry "Core").map
      (fun e => (e.handle.dynamic, e.reference.isSome)) = some (true, true) := by decide +kernel
  have hruntime : ((Host.fresh .default).run recompiled).linker.registry.reference? "Runtime" =
      none := by decide +kernel
  obtain ⟨e, he, hshown⟩ := Option.map_eq_some_iff.1 hcore
  obtain ⟨hname, hloaded, -⟩ := hentries "Core" e he
  obtain ⟨hdynamic, href⟩ := Prod.mk.inj hshown
  refine ⟨hfits, (hget "Runtime").trans hruntime, e, he, hname, hloaded, hdynamic, href, ?_⟩
  rw [hget, Registry.reference?, he]
  rfl

end Linkage
