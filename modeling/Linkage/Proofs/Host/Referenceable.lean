import Linkage.Proofs.Build.Rearranged
import Linkage.Proofs.Build.Symbols
import Linkage.Proofs.Host.Atomicity
import Linkage.Proofs.Host.Coherence
import Linkage.Proofs.Host.Loading
import Linkage.Proofs.Host.Resolution
import Linkage.Proofs.Script.Extension

/-!
# Linkage.Proofs.Host.Referenceable

`referenceable_iff`: another module can extend a type that was compiled, exactly if the module of
the type is not called by a keyword.

* `entry?_run` — what was compiled under a name stays there until the next compile under it.
* `Compiles.type?_of_declared` — what its sources declare can be referred to.
* `Host.Compiles.type?_run` — the reference set has what was compiled last under a name.
* `Extending.interface_eq` — what is emitted for a single type that extends one of another module.
* `Host.compiled?_extending`, `Host.compiled?_extending_keyword` — when its compile succeeds.

Every keyword is a valid name of a module. Such a module is loaded and registered, but no path of
the language leads into it.
-/

namespace Linkage

/-! ## Names -/

theorem isModuleName_iff {name : String} : isModuleName name = true ↔ Token.Word name := by
  unfold isModuleName Token.Word
  split
  · rename_i hnil
    refine iff_of_false nofun ?_
    rintro ⟨c, cs, hcons, -⟩
    cases hnil.symm.trans hcons
  · rename_i c cs hcons
    rw [Bool.and_eq_true, List.all_eq_true]
    constructor
    · exact fun ⟨hc, hcs⟩ => ⟨c, cs, hcons, hc, hcs⟩
    · rintro ⟨d, ds, hsame, hd⟩
      obtain ⟨rfl, rfl⟩ := List.cons.inj (hcons.symm.trans hsame)
      exact hd

/-! ## What stays registered -/

namespace Host

theorem entry?_link {host : Host} {name : String} {e : Registry.Entry}
    (he : host.linker.registry.entry? name = some e) (interface : Interface)
    (symbols : Option Symbols) (location : Option String) (dynamic : Bool) :
    Registry.entry? (host.link interface symbols location dynamic).2.linker.registry name =
      some e := by
  refine link_induction (M := fun host' => host'.linker.registry.entry? name = some e) he ?_
  intro host' o he'
  cases o with
  | linker => exact Registry.entry?_observe he' _ _
  | registry _ => exact he'
  | recorder _ => exact he'

theorem entry?_prepare {host : Host} {name : String} {e : Registry.Entry}
    (he : host.linker.registry.entry? name = some e) :
    host.prepare.2.linker.registry.entry? name = some e := by
  obtain ⟨-, -, -, hregistry | hregistry⟩ := host.prepare_eq
  · exact hregistry ▸ he
  · exact hregistry ▸ Registry.entry?_enrollAll he _ _

/-- Nothing but a compile under this name changes an entry. -/
theorem entry?_after {host : Host} {name : String} {e : Registry.Entry}
    (he : host.linker.registry.entry? name = some e) {event : Event}
    (hevent : host.compiledAs? name event = none) :
    Registry.entry? (host.after event).linker.registry name = some e := by
  cases event with
  | writeFile path content => exact he
  | makeDirectory path => exact he
  | removeFile path => exact he
  | addNative interface location => exact entry?_link he interface none location false
  | loadImage image symbols =>
    rcases host.loadImage_cases image symbols with heq | ⟨k, hl⟩
    · rwa [after, heq]
    · rwa [after, hl.linker]
  | prepare => exact entry?_prepare he
  | compile request =>
    cases hc : host.compiled? request with
    | none =>
      rw [after, registry_compile_of_none hc]
      exact entry?_prepare he
    | some h =>
      obtain ⟨result, hcompile, hmodule⟩ := compile_of_compiled? hc
      have hother : name ≠ request.module := by
        rintro rfl
        rw [compiledAs?, if_pos rfl, hc] at hevent
        cases hevent
      rw [after, (compile_ok hcompile hmodule).registry, Registry.entry?_register, if_neg hother]
      exact entry?_prepare he

theorem entry?_run {host : Host} {name : String} {e : Registry.Entry}
    (he : host.linker.registry.entry? name = some e) {history : List Event}
    (hlast : host.lastCompiledAs? name history = none) :
    Registry.entry? (host.run history).linker.registry name = some e := by
  induction history generalizing host with
  | nil => exact he
  | cons event history ih =>
    rw [lastCompiledAs?, Option.or_eq_none_iff] at hlast
    exact ih (entry?_after he hlast.2) hlast.1

end Host

/-! ## What can be referred to -/

theorem Host.Compiles.entry?_self {host host' : Host} {forceDebug : Bool} {request : Request}
    {h : Handle} (hc : host.Compiles forceDebug request h host') :
    host'.linker.registry.entry? request.module = some ⟨some ⟨h.interface, .memory⟩, h⟩ := by
  rw [hc.registry, Registry.entry?_register, if_pos rfl]

/-- A declared type of the new module, and how it is named. -/
theorem Host.Compiles.type?_of_declared {host host' : Host} {forceDebug : Bool} {request : Request}
    {h : Handle} (hc : host.Compiles forceDebug request h host')
    (hfits : ((Program.ofSources request.module request.sources
      host.linker.registry.snapshot).interface
        (Options.forMode (request.debug || forceDebug)).optimization).Fits)
    {s : Source} (hs : s ∈ request.sources) {t : Script.TypeDecl}
    (ht : .type t ∈ (Script.parse s.text).1.items) :
    Token.Identifier t.name.name ∧
      ∃ u, h.interface.type? t.name.name = some u ∧ u.modifiers = t.modifiers := by
  have hw := hc.wellFormed
  have hparse := hw.parse?_of_mem hs
  refine ⟨Script.identifier_of_declared hparse ht, ?_⟩
  have hdeclared : t ∈ (Contents.ofSources request.module request.sources
      host.linker.registry.snapshot).types := by
    rw [Contents.ofSources, Source.items_eq]
    exact List.mem_filterMap.2 ⟨.type t, List.mem_flatMap.2 ⟨s, hs, ht⟩, rfl⟩
  have hemits := hw.emits (Options.forMode (request.debug || forceDebug)).optimization
  rw [Scope.contents_ofSources] at hemits
  obtain ⟨u, hu, htu⟩ := hemits.type?_of_mem hw.sound.names hdeclared
  rw [hc.interface hfits]
  exact ⟨u, hu, htu.modifiers⟩

/-- The reference set has it, whatever came later. -/
theorem Host.Compiles.type?_run {host host' : Host} {forceDebug : Bool} {request : Request}
    {h : Handle} (hc : host.Compiles forceDebug request h host') {later : List Event}
    (hlast : host'.lastCompiledAs? request.module later = none)
    (hcoherent : (host'.run later).Coherent) (name : String) :
    (host'.run later).linker.registry.snapshot.type? request.module name =
      h.interface.type? name := by
  rw [Snapshot.type?, Registry.get?_snapshot hcoherent.entries, Registry.reference?,
    Host.entry?_run hc.entry?_self hlast]
  rfl

/-! ## A type that extends one of another module -/

/-- What `type u extends n.t {}` needs as the source of a module `m`. -/
structure Extending (m u n t : String) (snapshot : Snapshot) : Prop where
  name : Token.Identifier u
  qualifier : Token.Identifier n
  base : Token.Identifier t
  outward : n ≠ m
  notBuiltin : Kind.ofName? u = none
  extensible : ∃ w, snapshot.type? n t = some w ∧ w.modifiers.isSealed = false

/-- What the source declares, without places. -/
def Contents.extending (m u n t : String) (snapshot : Snapshot) : Contents :=
  ⟨m, snapshot, [.extending u n t], []⟩

/-- What is emitted for it. -/
def Interface.extending (m u n t : String) (o : Optimization) : Interface :=
  { name := m
    optimization := o
    references := [n]
    types := [.make m u .empty (some (.imported n t)) []]
    constants := [] }

def Source.extending (u n t : String) (origin : Option String) : Source :=
  ⟨Script.extension u n t, origin⟩

namespace Extending

variable {m u n t : String} {snapshot : Snapshot}

theorem namesType (h : Extending m u n t snapshot) :
    (Contents.extending m u n t snapshot).NamesType
      ⟨some ⟨n, Script.nowhere⟩, ⟨t, Script.nowhere⟩⟩ (.imported n t) := by
  obtain ⟨w, hw, -⟩ := h.extensible
  exact .imported (q := ⟨n, Script.nowhere⟩) (n := ⟨t, Script.nowhere⟩) h.outward hw

theorem emitsType (h : Extending m u n t snapshot) :
    (Contents.extending m u n t snapshot).EmitsType (.extending u n t)
      (.make m u .empty (some (.imported n t)) []) where
  name := rfl
  hash := rfl
  modifiers := rfl
  base := by
    refine .some fun r => ⟨fun hr => ?_, fun hr => hr ▸ h.namesType⟩
    cases hr with
    | self hself => exact absurd hself h.outward
    | imported _ _ => rfl
  fields := .nil

theorem refers_iff (h : Extending m u n t snapshot) {x : String} :
    (Contents.extending m u n t snapshot).Refers x ↔ x ∈ [n] := by
  rw [List.mem_singleton]
  constructor
  · rintro ⟨p, hp, -, q, hq, rfl⟩
    obtain rfl := List.mem_singleton.1 hp
    cases hq
    rfl
  · rintro rfl
    exact ⟨_, List.mem_singleton_self _, h.outward, _, rfl, rfl⟩

theorem sound (h : Extending m u n t snapshot) :
    (Contents.extending m u n t snapshot).Sound where
  names := ⟨List.nodup_singleton _, List.forall_mem_singleton.2 h.notBuiltin, List.nodup_nil⟩
  modifiers := by
    have hempty : Modifiers.empty.isSealed ≠ true := by decide
    exact List.forall_mem_singleton.2 fun hboth => hempty hboth.1
  bases := by
    refine List.forall_mem_singleton.2 ?_
    rintro p ⟨⟩
    refine ⟨_, h.namesType, fun w hw => ?_⟩
    obtain ⟨w', hw', hsealed⟩ := h.extensible
    obtain rfl := Option.some_inj.1 (hw'.symm.trans hw)
    exact hsealed
  fields := List.forall_mem_singleton.2 ⟨List.nodup_nil, fun _ hf => nomatch hf⟩
  noBaseCycle := by
    -- The only base is a type of another module.
    have hnone : ∀ a b, ¬ (Contents.extending m u n t snapshot).Extends a b := by
      rintro a b ⟨d, hd, -, p, hp, hnames⟩
      obtain rfl := List.mem_singleton.1 hd
      cases hp
      cases hnames with
      | self hself => exact h.outward hself
    intro a ha
    obtain ⟨b, hb, -⟩ := Relation.TransGen.head'_iff.1 ha
    exact hnone a b hb
  paths := fun _ hc => nomatch hc
  noConstCycle := by
    intro a ha
    obtain ⟨b, ⟨c, hc, -⟩, -⟩ := Relation.TransGen.head'_iff.1 ha
    cases hc
  values := fun _ hc => nomatch hc

/-! ### The source -/

theorem contents_eq (h : Extending m u n t snapshot) (origin : Option String) :
    ∃ d : Script.TypeDecl, d.unplaced = .extending u n t ∧
      Contents.ofSources m [.extending u n t origin] snapshot = ⟨m, snapshot, [d], []⟩ := by
  obtain ⟨d, span, hparse, hd⟩ := Script.parse_extension h.name h.qualifier h.base
  refine ⟨d, hd, ?_⟩
  rw [Contents.ofSources, Source.items_eq, List.flatMap_singleton, Source.extending, hparse]
  rfl

theorem rearranged (h : Extending m u n t snapshot) (origin : Option String) :
    (Contents.extending m u n t snapshot).Rearranged
      (Contents.ofSources m [.extending u n t origin] snapshot) := by
  obtain ⟨d, hd, hcontents⟩ := h.contents_eq origin
  rw [hcontents]
  exact ⟨rfl, rfl, .of_eq (congrArg (fun d => [d]) hd), .refl _⟩

theorem wellFormed (h : Extending m u n t snapshot) (origin : Option String) :
    WellFormed m [.extending u n t origin] snapshot where
  readable := by
    obtain ⟨d, span, hparse, -⟩ := Script.parse_extension h.name h.qualifier h.base
    exact List.forall_mem_singleton.2 fun _ => congrArg Prod.snd hparse
  sound := (h.rearranged origin).sound h.sound

theorem references_eq (h : Extending m u n t snapshot) (origin : Option String) :
    (Program.ofSources m [.extending u n t origin] snapshot).references = [n] := by
  have hmoved := h.rearranged origin
  refine (Program.references_ascending _).eq_of_mem_iff (List.pairwise_singleton _ n) fun x => ?_
  rw [(h.wellFormed origin).mem_references, ← h.refers_iff]
  exact ⟨hmoved.symm.refers, hmoved.refers⟩

theorem interface_eq (h : Extending m u n t snapshot) (origin : Option String) (o : Optimization) :
    (Program.ofSources m [.extending u n t origin] snapshot).interface o =
      .extending m u n t o := by
  obtain ⟨d, hd, hcontents⟩ := h.contents_eq origin
  have htype := (h.rearranged origin).emitsType hd h.emitsType
  have hemits := (h.wellFormed origin).emits o
  have hreferences :
      ((Program.ofSources m [.extending u n t origin] snapshot).interface o).references = [n] := by
    rw [Program.interface, h.references_eq origin]
  rw [Scope.contents_ofSources, hcontents] at hemits
  rw [hcontents] at htype
  obtain ⟨hname, hoptimization, htypes, hconstants⟩ := hemits
  generalize (Program.ofSources m [.extending u n t origin] snapshot).interface o = i
    at hname hoptimization htypes hconstants hreferences
  obtain ⟨name, optimization, references, types, constants⟩ := i
  dsimp only at hname hoptimization htypes hconstants hreferences
  cases hconstants
  cases htypes with
  | cons hw hnil =>
    cases hnil
    rw [hw.unique htype, hname, hoptimization, hreferences]
    rfl

theorem entriesOf_eq (h : Extending m u n t snapshot) (origin : Option String) :
    ∃ span, Program.entriesOf [.extending u n t origin] = [⟨.type, u, 0, span⟩] := by
  obtain ⟨d, span, hparse, hd⟩ := Script.parse_extension h.name h.qualifier h.base
  have hname : d.name.name = u := congrArg (·.name.name) hd
  have hfields : d.fields = [] := List.map_eq_nil_iff.1 (congrArg (·.fields) hd)
  refine ⟨d.name.span, ?_⟩
  simp [Program.entriesOf, Declarations.types_ofSources, Declarations.constants_ofSources,
    Source.extending, hparse, Script.Item.type?, Script.Item.const?, Program.typeEntries, hname,
    hfields]

/-! ### Lengths -/

theorem fits_interface (hm : Text.Fits m) (hu : Text.Fits u) (hn : Text.Fits n)
    (ht : Text.Fits t) (o : Optimization) : (Interface.extending m u n t o).Fits where
  name := hm
  referenceCount := show 1 < Wire.countLimit by decide
  references := List.forall_mem_singleton.2 hn
  typeCount := show 1 < Wire.countLimit by decide
  types := by
    refine List.forall_mem_singleton.2 ⟨hu, ?_, Nat.zero_lt_succ _, fun _ hf => nomatch hf⟩
    rintro b ⟨⟩
    exact ⟨hn, ht⟩
  constantCount := show 0 < Wire.countLimit by decide
  constants := fun _ hc => nomatch hc

theorem fits_symbols (h : Extending m u n t snapshot) {origin : Option String} (hm : Text.Fits m)
    (hu : Text.Fits u) (horigin : ∀ text, origin = some text → Text.Fits text) :
    ((Program.ofSources m [.extending u n t origin] snapshot).symbols
      (origins [.extending u n t origin])).Fits := by
  have hwell := h.wellFormed origin
  obtain ⟨span, hentries⟩ := h.entriesOf_eq origin
  have hunits : Text.Fits (origin.getD "<unit 0>") := by
    cases horig : origin with
    | none => decide
    | some text => exact horigin text horig
  refine ⟨?_, Nat.one_lt_succ_succ _, List.forall_mem_singleton.2 hunits, ?_, ?_⟩
  · rwa [Program.symbols, hwell.scope_eq]
  · rw [hwell.entries_symbols, hentries]
    exact Nat.one_lt_succ_succ _
  · rw [hwell.entries_symbols, hentries]
    exact List.forall_mem_singleton.2 hu

end Extending

/-! ## Compiling it -/

def Request.extending (m u n t : String) (origin : Option String) (debug : Bool) : Request :=
  ⟨m, [.extending u n t origin], debug⟩

namespace Host

variable {host : Host} {m u n t : String} {origin : Option String} {debug : Bool}

theorem isModuleName_of_compiled? {request : Request} {h : Handle}
    (hh : host.compiled? request = some h) : isModuleName request.module = true := by
  by_contra hname
  unfold compiled? compile at hh
  generalize host.prepare = outcome at hh
  obtain ⟨result, prepared⟩ := outcome
  cases result with
  | error e => cases hh
  | ok _ =>
    dsimp only at hh
    rw [build, if_neg hname] at hh
    cases hh

theorem initialized_of_compiled? {request : Request} {h : Handle}
    (hh : host.compiled? request = some h) :
    (host.after (.compile request)).linker.initialized = true := by
  have hc : host.compiledAs? request.module (.compile request) = some h := (if_pos rfl).trans hh
  exact initialized_of_compiledAs? hc

theorem compiled?_extending (hinit : host.linker.initialized = true)
    (h : Extending m u n t host.linker.registry.snapshot) (hname : isModuleName m = true)
    (hm : Text.Fits m) (hu : Text.Fits u) (hn : Text.Fits n) (ht : Text.Fits t)
    (horigin : ∀ text, origin = some text → Text.Fits text) :
    ∃ k, host.compiled? (.extending m u n t origin debug) = some k ∧
      k.interface = .extending m u n t
        (Options.forMode (debug || host.linker.config.forceDebug)).optimization := by
  have hinterface := h.interface_eq origin
    (Options.forMode (debug || host.linker.config.forceDebug)).optimization
  have hfits := Extending.fits_interface hm hu hn ht
    (Options.forMode (debug || host.linker.config.forceDebug)).optimization
  rw [← hinterface] at hfits
  rcases build_cases atomic_loadImage .linker host.linker.config.forceDebug host
    (.extending m u n t origin debug) with ⟨hrefuses, -⟩ | ⟨k, hb, hresult⟩
  · exfalso
    cases hrefuses with
    | name hinvalid => exact Bool.eq_false_iff.1 hinvalid hname
    | sources hd herror =>
      have hsome : (host.emission .linker host.linker.config.forceDebug
          (.extending m u n t origin debug)).output.isSome = true :=
        isSome_output.2 (Program.noErrors_ofSources.2 (h.wellFormed origin))
      rw [emission, output_eq_none_iff.2 ⟨_, hd, herror⟩] at hsome
      cases hsome
    | image ho herror =>
      have hread := readImage_output ho hfits fun _ => h.fits_symbols hm hu horigin
      rw [host.loadImage_of_readImage hread] at herror
      cases herror
  · refine ⟨k, ?_, (hb.compiles.interface hfits).trans hinterface⟩
    rw [compiled?, compile_of_initialized hinit, hresult]

/-- Whatever the host has under the name. -/
theorem compiled?_extending_keyword (hu : Token.Word u) (hn : Token.Word n) (ht : Token.Word t)
    {kind : Token.Kind} (hkey : Token.Kind.ofKeyword? n = some kind) :
    host.compiled? (.extending m u n t origin debug) = none := by
  have herrors := Script.parse_extension_keyword hu hn ht hkey
  cases hc : host.compiled? (.extending m u n t origin debug) with
  | none => rfl
  | some k =>
    obtain ⟨result, hcompile, hmodule⟩ := compile_of_compiled? hc
    have hw := (compile_ok hcompile hmodule).wellFormed
    have hreadable := List.forall_mem_singleton.1 hw.readable
    exfalso
    cases hblank : (Source.extending u n t origin).isBlank with
    | true => exact herrors (Script.parse_of_isBlank hblank).2
    | false => exact herrors (hreadable hblank)

end Host

/--
Let a request be compiled after any history, and let no later compile replace it. Another module can
then extend a type that the request declares and does not seal, under any name that is free to it,
exactly if the request's module is not called by a keyword.
-/
theorem referenceable_iff (config : Config) (before : List Event) (request : Request)
    (later : List Event) {h : Handle} {s : Source} {t : Script.TypeDecl} :
    let first := (Host.fresh config).run before
    let host := (Host.fresh config).run (before ++ .compile request :: later)
    let emitted := (Program.ofSources request.module request.sources
      first.prepare.2.linker.registry.snapshot).interface
        (Options.forMode (request.debug || config.forceDebug)).optimization
    (∀ e ∈ before ++ .compile request :: later, e.Fits) →
    first.compiled? request = some h → emitted.Fits →
    (first.after (.compile request)).lastCompiledAs? request.module later = none →
    s ∈ request.sources → .type t ∈ (Script.parse s.text).1.items →
    t.modifiers.isSealed = false →
    ∀ (m u : String) (origin : Option String) (debug : Bool),
      isModuleName m = true → request.module ≠ m → Token.Identifier u → Kind.ofName? u = none →
      Text.Fits m → Text.Fits u → (∀ text, origin = some text → Text.Fits text) →
      let extending := Request.extending m u request.module t.name.name origin debug
      (Token.Kind.ofKeyword? request.module = none → ∃ k, host.compiled? extending = some k ∧
        k.interface = .extending m u request.module t.name.name
          (Options.forMode (debug || config.forceDebug)).optimization) ∧
      (Token.Kind.ofKeyword? request.module ≠ none → host.compiled? extending = none) := by
  intro first host emitted hfits hcompiled hemitted hlast hs ht hsealed m u origin debug hm hother
    hu hbuiltin hmfits hufits horigin extending
  have hforce : first.linker.config.forceDebug = config.forceDebug :=
    congrArg Config.forceDebug (Host.config_run _ before)
  have hhost : host = (first.after (.compile request)).run later := Host.run_append _ _ _
  obtain ⟨result, hcompile, hmodule⟩ := Host.compile_of_compiled? hcompiled
  have hc := Host.compile_ok hcompile hmodule
  rw [hforce] at hc
  obtain ⟨hidentifier, w, hw, hmodifiers⟩ := hc.type?_of_declared hemitted hs ht
  have hword := isModuleName_iff.1 (Host.isModuleName_of_compiled? hcompiled)
  refine ⟨fun hfree => ?_, fun hkey => ?_⟩
  · have hinit : host.linker.initialized = true := by
      rw [hhost]
      exact Host.initialized_run (Host.initialized_of_compiled? hcompiled) later
    have hcoherent : host.Coherent := (Host.Coherent.fresh config).run hfits
    have hexported : host.linker.registry.snapshot.type? request.module t.name.name = some w := by
      rw [hhost] at hcoherent ⊢
      exact (hc.type?_run hlast hcoherent t.name.name).trans hw
    have hextending : Extending m u request.module t.name.name host.linker.registry.snapshot :=
      ⟨hu, ⟨hword, hfree⟩, hidentifier, hother, hbuiltin, w, hexported, hmodifiers ▸ hsealed⟩
    have htfits : Text.Fits t.name.name := by
      have hmem := List.mem_of_find?_eq_some hw
      rw [hc.interface hemitted] at hmem
      exact Interface.name_of_type? hw ▸ (hemitted.types w hmem).name
    have hnfits : Text.Fits request.module := hfits (.compile request) (by simp)
    have hconfig : host.linker.config.forceDebug = config.forceDebug :=
      congrArg Config.forceDebug (Host.config_run _ _)
    rw [← hconfig]
    exact Host.compiled?_extending hinit hextending hm hmfits hufits hnfits htfits horigin
  · obtain ⟨kind, hkind⟩ := Option.ne_none_iff_exists'.1 hkey
    exact Host.compiled?_extending_keyword hu.word hword hidentifier.word hkind

/-! ### A module called by a keyword, and one called by a name -/

def keywordModule : Request := ⟨"type", [⟨"type T \x7b\x7d", none⟩], false⟩

def withKeyword : Host := (Host.fresh .default).run [.compile keywordModule]

theorem keyword_not_referenceable :
    isModuleName "type" = true ∧ isModuleName "M" = true ∧ withKeyword.linker.initialized = true ∧
      ((Host.fresh .default).compiled? keywordModule).isSome = true ∧
      (withKeyword.linker.registry.snapshot.type? "type" "T").map (·.modifiers.isSealed) =
        some false ∧
      withKeyword.compiled? ⟨"M", [⟨"type U extends type.T \x7b\x7d", none⟩], false⟩ = none := by
  decide +kernel

def rooted : Request :=
  ⟨"Base", [⟨"const X = 1;", none⟩, ⟨"abstract type Root \x7b\x7d", none⟩], true⟩

/-- A second version of the module that comes to nothing, and another module. -/
def afterRooted : List Event :=
  [.compile ⟨"Base", [⟨"type Root", none⟩], false⟩,
    .compile ⟨"Other", [⟨"type T \x7b\x7d", none⟩], false⟩]

theorem referenceable_iff_root :
    ∃ k, ((Host.fresh .default).run (.compile rooted :: afterRooted)).compiled?
        (.extending "M" "U" "Base" "Root" none false) = some k ∧
      k.interface = .extending "M" "U" "Base" "Root" .release := by
  have hsome : ((Host.fresh .default).compiled? rooted).isSome = true := by decide +kernel
  obtain ⟨h, hcompiled⟩ := Option.isSome_iff_exists.1 hsome
  have hfits : ∀ e ∈ .compile rooted :: afterRooted, e.Fits := by
    have hnames : Text.Fits "Base" ∧ Text.Fits "Other" := by decide +kernel
    simpa [afterRooted, rooted, Event.Fits] using hnames
  have hlast : ((Host.fresh .default).after (.compile rooted)).lastCompiledAs? "Base" afterRooted =
      none := by
    decide +kernel
  have hdeclared : .type ⟨.abstract, ⟨"Root", ⟨1, 15, 4⟩⟩, none, [], ⟨1, 1, 21⟩⟩ ∈
      (Script.parse "abstract type Root \x7b\x7d").1.items := by
    decide +kernel
  have hu : Token.Identifier "U" := ⟨isModuleName_iff.1 (by decide +kernel), by decide⟩
  have hroot := referenceable_iff .default [] rooted afterRooted hfits hcompiled
    (by decide +kernel) hlast (List.mem_cons_of_mem _ List.mem_cons_self) hdeclared
    (by decide +kernel) "M" "U" none false (by decide +kernel) (by decide) hu (by decide)
    (by decide +kernel) (by decide +kernel) nofun
  exact hroot.1 (by decide)

end Linkage
