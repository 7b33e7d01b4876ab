import Linkage.Proofs.Host.Compile

/-!
# Linkage.Proofs.Host.Admission

What the linker admits when it is prepared and when it is told of a load.

* `Registry.admissions` — the modules that a registry takes in out of those it is offered.
* `find?_admissions` — out of those of one name it is the first.
* `Files.Permits` — the file behind a module does not stand against admitting it; `noted_of_free`
  says what this means for a module whose name is free.
* `Host.Frame` — what loads and builds leave as it was.
* `Host.Wired` — whether the linker is told of loads, kept by `prepare`.
* `prepare_of_uninitialized` — the linker is initialized exactly if everything can be enrolled.
-/

namespace Linkage

/-! ## Admission -/

/-- The file is gone, or it holds an image of a module of this name. -/
def Files.Permits (files : Files) (path name : String) : Prop :=
  files.get? path = none ∨
    ∃ content i, files.get? path = some (.file content) ∧ Interface.decode content = .ok i ∧
      i.name = name

namespace Registry

/-- The new modules among these, in order, up to the first that cannot be enrolled. -/
def admissions (files : Files) : Registry → List Handle → List Handle
  | _, [] => []
  | r, h :: hs =>
    match r.enroll files h with
    | .error _ => []
    | .ok none => admissions files r hs
    | .ok (some r) => h :: admissions files r hs

/-- The module, if the registry takes note of it and it is new. -/
def noted (files : Files) (r : Registry) (h : Handle) : List Handle :=
  if h.dynamic || h.location.isNone then [] else r.admissions files [h]

variable {files : Files}

theorem resolve?_enroll {r r' : Registry} {h : Handle} (he : r.enroll files h = .ok (some r'))
    (name : String) :
    r'.resolve? name = (r.resolve? name).or (if h.name = name then some h else none) := by
  obtain ⟨hnew, reference, -, rfl⟩ := enroll_ok he
  unfold resolve?
  rw [entry?_put]
  by_cases hname : h.name = name
  · subst hname
    rw [hnew, if_pos rfl, if_pos rfl]
    rfl
  · rw [if_neg (Ne.symm hname), if_neg hname, Option.or_none]

theorem isSome_of_enroll {r : Registry} {h : Handle} (he : r.enroll files h = .ok none) :
    (r.resolve? h.name).isSome = true := by
  unfold enroll at he
  split at he
  · rename_i hold
    rw [resolve?, Option.isSome_map]
    exact hold
  · split at he
    · cases he
    · cases he

theorem resolve?_enrollAll (hs : List Handle) (r : Registry) (name : String) :
    (enrollAll files r hs).2.resolve? name =
      (r.resolve? name).or ((r.admissions files hs).find? (·.name == name)) := by
  induction hs generalizing r with
  | nil => exact (Option.or_none).symm
  | cons h hs ih =>
    cases he : r.enroll files h with
    | error e => simp only [enrollAll, admissions, he, List.find?_nil, Option.or_none]
    | ok o =>
      cases o with
      | none => simp only [enrollAll, admissions, he, ih]
      | some r' =>
        have hsnd : (enrollAll files r (h :: hs)).2 = (enrollAll files r' hs).2 := by
          simp only [enrollAll, he]
          split
          · rename_i hrest
            rw [hrest]
          · rename_i hrest
            rw [hrest]
        rw [hsnd, ih, resolve?_enroll he, Option.or_assoc]
        simp only [admissions, he]
        by_cases hname : h.name = name
        · rw [if_pos hname, List.find?_cons_of_pos (by simpa using hname)]
          rfl
        · rw [if_neg hname, List.find?_cons_of_neg (by simpa using hname), Option.none_or]

/--
Out of what is offered under a name that is not taken, the first is admitted, unless the enrolling
stops at an error before.
-/
theorem find?_admissions (hs : List Handle) (r : Registry) {name : String}
    (hnew : r.resolve? name = none) :
    (r.admissions files hs).find? (·.name == name) = hs.find? (·.name == name) ∨
      (r.admissions files hs).find? (·.name == name) = none ∧
        ∃ e, (enrollAll files r hs).1 = .error e := by
  induction hs generalizing r with
  | nil => exact .inl rfl
  | cons h hs ih =>
    cases he : r.enroll files h with
    | error e =>
      refine .inr ⟨?_, e, ?_⟩
      · simp only [admissions, he, List.find?_nil]
      · simp only [enrollAll, he]
    | ok o =>
      cases o with
      | none =>
        have hne : ¬ h.name = name := by
          rintro rfl
          have htaken := isSome_of_enroll he
          rw [hnew] at htaken
          cases htaken
        have hskip : (h :: hs).find? (·.name == name) = hs.find? (·.name == name) :=
          List.find?_cons_of_neg (by simpa using hne)
        simp only [admissions, enrollAll, he, hskip]
        exact ih r hnew
      | some r' =>
        by_cases hname : h.name = name
        · simp [admissions, he, hname]
        · have hnew' : r'.resolve? name = none := by
            rw [resolve?_enroll he, hnew, if_neg hname]
            rfl
          simp only [admissions, he, List.find?_cons_of_neg (p := fun k : Handle => k.name == name)
            (show ¬ (h.name == name) = true by simpa using hname)]
          refine (ih r' hnew').imp_right fun ⟨hnone, e, herror⟩ => ⟨hnone, e, ?_⟩
          simp only [enrollAll, he]
          split
          · rename_i hrest
            rw [hrest] at herror
            cases herror
          · rename_i hrest
            rw [hrest] at herror
            exact herror

theorem mem_of_mem_admissions {hs : List Handle} {r : Registry} {k : Handle}
    (h : k ∈ r.admissions files hs) : k ∈ hs := by
  induction hs generalizing r with
  | nil => cases h
  | cons h' hs ih =>
    simp only [admissions] at h
    split at h
    · cases h
    · exact List.mem_cons_of_mem _ (ih h)
    · rcases List.mem_cons.1 h with rfl | h
      · exact List.mem_cons_self
      · exact List.mem_cons_of_mem _ (ih h)

theorem resolve?_observe (r : Registry) (h : Handle) (name : String) :
    (r.observe files h).resolve? name =
      (r.resolve? name).or ((r.noted files h).find? (·.name == name)) := by
  unfold observe noted
  split
  · exact (Option.or_none).symm
  · cases he : r.enroll files h with
    | error e => simp [admissions, he]
    | ok o =>
      cases o with
      | none => simp [admissions, he]
      | some r' =>
        simp only [admissions, he, resolve?_enroll he]
        by_cases hname : h.name = name
        · rw [if_pos hname, List.find?_cons_of_pos (by simpa using hname)]
        · rw [if_neg hname, List.find?_cons_of_neg (by simpa using hname), List.find?_nil]

theorem eq_of_mem_noted {r : Registry} {h k : Handle} (hk : k ∈ r.noted files h) :
    k = h ∧ h.dynamic = false ∧ h.location.isSome = true := by
  unfold noted at hk
  split at hk
  · cases hk
  · rename_i hkind
    obtain ⟨hdynamic, hlocation⟩ := Bool.or_eq_false_iff.1 (Bool.eq_false_iff.2 hkind)
    exact ⟨List.mem_singleton.1 (mem_of_mem_admissions hk), hdynamic,
      Option.isNone_eq_false_iff.1 hlocation⟩

theorem hostReference_ok_iff {h : Handle} {path : String} (hlocation : h.location = some path) :
    (∃ reference, hostReference files h = .ok reference) ↔ files.Permits path h.name := by
  unfold Files.Permits
  cases hfile : files.get? path with
  | none => simp [hostReference, hlocation, Reference.ofFile, Files.read, hfile]
  | some entry =>
    cases entry with
    | directory => simp [hostReference, hlocation, Reference.ofFile, Files.read, hfile]
    | file content =>
      cases hdecode : Interface.decode content with
      | error e => simp [hostReference, hlocation, Reference.ofFile, Files.read, hfile, hdecode]
      | ok i =>
        by_cases hname : i.name = h.name
        · simp [hostReference, hlocation, Reference.ofFile, Files.read, Reference.name, hfile,
            hdecode, hname]
        · simp [hostReference, hlocation, Reference.ofFile, Files.read, Reference.name, hfile,
            hdecode, hname]

/-- A module with a file and a free name is noted exactly if its file permits it. -/
theorem noted_of_free {r : Registry} {h : Handle} {path : String} (hdynamic : h.dynamic = false)
    (hlocation : h.location = some path) (hfree : r.resolve? h.name = none) :
    (files.Permits path h.name → r.noted files h = [h]) ∧
      (¬ files.Permits path h.name → r.noted files h = []) := by
  have hnew : r.contains h.name = false := by
    rw [resolve?, Option.map_eq_none_iff] at hfree
    rw [contains, Store.contains, ← entry?, hfree, Option.isSome_none]
  have hkind : (h.dynamic || h.location.isNone) = false := by
    rw [hdynamic, hlocation]
    rfl
  rw [← hostReference_ok_iff hlocation]
  unfold noted admissions enroll
  rw [hkind, hnew, if_neg Bool.false_ne_true, if_neg Bool.false_ne_true]
  constructor
  · rintro ⟨reference, hr⟩
    simp only [hr, admissions]
  · intro hnone
    cases hr : hostReference files h with
    | error e => rfl
    | ok reference => exact absurd ⟨reference, hr⟩ hnone

end Registry

namespace Host

/-! ## Frames -/

/-- Who is told of loads and how far the linker has come is as before, and no module is gone. -/
structure Frame (host host' : Host) : Prop where
  observers : host'.catalog.observers = host.catalog.observers
  config : host'.linker.config = host.linker.config
  initialized : host'.linker.initialized = host.linker.initialized
  attached : host'.linker.attached = host.linker.attached
  modules : host.catalog.modules <+: host'.catalog.modules

theorem Frame.refl (host : Host) : host.Frame host := ⟨rfl, rfl, rfl, rfl, List.prefix_refl _⟩

theorem Frame.trans {host host' host'' : Host} (h : host.Frame host') (h' : host'.Frame host'') :
    host.Frame host'' :=
  ⟨h'.observers.trans h.observers, h'.config.trans h.config, h'.initialized.trans h.initialized,
    h'.attached.trans h.attached, h.modules.trans h'.modules⟩

theorem frame_tell (host : Host) (h : Handle) (o : Observer) : host.Frame (host.tell h o) := by
  cases o with
  | linker => exact ⟨rfl, rfl, rfl, rfl, List.prefix_refl _⟩
  | registry name => exact ⟨rfl, rfl, rfl, rfl, List.prefix_refl _⟩
  | recorder name => exact ⟨rfl, rfl, rfl, rfl, List.prefix_refl _⟩

theorem frame_setRegistry (host : Host) (r : Registry) : host.Frame (host.setRegistry r .linker) :=
  ⟨rfl, rfl, rfl, rfl, List.prefix_refl _⟩

theorem frame_link (host : Host) (interface : Interface) (symbols : Option Symbols)
    (location : Option String) (dynamic : Bool) :
    host.Frame (host.link interface symbols location dynamic).2 :=
  link_induction (M := host.Frame) ⟨rfl, rfl, rfl, rfl, List.prefix_append _ _⟩
    fun host' o h => h.trans (host'.frame_tell _ o)

theorem frame_loadImage (host : Host) (image : Bytes) (symbols : Option Bytes) :
    host.Frame (host.loadImage image symbols).2 := by
  unfold loadImage
  split
  · exact .refl host
  · exact host.frame_link _ _ _ _

theorem frame_build (host : Host) (forceDebug : Bool) (request : Request) :
    host.Frame (host.build loadImage .linker forceDebug request).2 := by
  unfold build
  dsimp only
  split
  · split
    · exact .refl host
    · rename_i o ho
      have hload := host.frame_loadImage o.image o.symbols
      split
      · rename_i hl
        rwa [hl] at hload
      · rename_i hl
        rw [hl] at hload
        split
        · exact hload
        · exact hload.trans (frame_setRegistry _ _)
  · exact .refl host

/-! ## Preparing -/

/-- The linker is told of loads once, and only under continuous observation. -/
structure Wired (host : Host) : Prop where
  observers : host.catalog.observers.filter (· = .linker) =
    if host.linker.attached then [.linker] else []
  policy : host.linker.attached = true → host.linker.config.observation = .continuous

theorem Frame.wired {host host' : Host} (h : host.Frame host') (hw : host.Wired) :
    host'.Wired := by
  refine ⟨?_, ?_⟩
  · rw [h.observers, h.attached]
    exact hw.observers
  · rw [h.attached, h.config]
    exact hw.policy

theorem Wired.attachLinker {host : Host} (hw : host.Wired) : host.attachLinker.Wired := by
  unfold Host.attachLinker
  split
  · rename_i h
    refine ⟨?_, fun _ => h.1⟩
    have hbefore := hw.observers
    rw [h.2] at hbefore
    simp only [subscribe, Catalog.subscribe, List.filter_append, hbefore]
    rfl
  · exact hw

theorem prepare_of_initialized {host : Host} (h : host.linker.initialized = true) :
    host.prepare = (.ok (), host) := by
  simp only [prepare, h, if_true]

theorem attachLinker_initialized (host : Host) :
    host.attachLinker.linker.initialized = host.linker.initialized := by
  unfold attachLinker
  split
  · rfl
  · rfl

/-- The first preparing enrolls what is loaded, and the linker is initialized if that succeeds. -/
theorem prepare_of_uninitialized {host : Host} (h : host.linker.initialized = false) :
    host.prepare.2.linker.registry =
        (host.linker.registry.enrollAll host.files host.catalog.modules).2 ∧
      ((∃ n, (host.linker.registry.enrollAll host.files host.catalog.modules).1 = .ok n) ∧
          host.prepare.2.linker.initialized = true ∨
        ∃ e, (host.linker.registry.enrollAll host.files host.catalog.modules).1 = .error e ∧
          host.prepare.1 = .error (.registry e) ∧ host.prepare.2.linker.initialized = false) := by
  obtain ⟨hfiles, hmodules, hregistry, -⟩ := host.attachLinker_eq
  have hinit := host.attachLinker_initialized.trans h
  unfold prepare
  rw [h, if_neg Bool.false_ne_true, ← hfiles, ← hmodules, ← hregistry]
  unfold initRegistry registry setRegistry
  dsimp only
  split
  · rename_i e host' heq
    obtain ⟨herror, rfl⟩ := Prod.mk.inj heq
    exact ⟨rfl, .inr ⟨e, herror, rfl, hinit⟩⟩
  · rename_i n host' heq
    obtain ⟨hok, rfl⟩ := Prod.mk.inj heq
    exact ⟨rfl, .inl ⟨⟨n, hok⟩, rfl⟩⟩

theorem Wired.prepare {host : Host} (hw : host.Wired) : host.prepare.2.Wired := by
  unfold Host.prepare initRegistry registry setRegistry
  dsimp only
  split
  · exact hw
  · split
    · rename_i heq
      obtain ⟨-, rfl⟩ := Prod.mk.inj heq
      exact ⟨hw.attachLinker.observers, hw.attachLinker.policy⟩
    · rename_i heq
      obtain ⟨-, rfl⟩ := Prod.mk.inj heq
      exact ⟨hw.attachLinker.observers, hw.attachLinker.policy⟩

end Host
end Linkage
