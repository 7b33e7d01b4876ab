import Linkage.Proofs.Host.Resolution

/-!
# Linkage.Proofs.Host.Initialization

Initializing the linker again after it has failed.

* `Registry.attempt` — enrolling modules, complete or not. It stops at the first module that cannot
  be enrolled, and `attempt_reaches` says where that leaves the registry.
* `Registry.Begun` — the registry of an initialization that stopped half-way.
* `Registry.Begun.attempt_eq` — an attempt from there does what an attempt from nothing does.
* `Host.Begun.run` — whatever fails, the linker's registry stays so, unless a file behind a module
  that is already admitted is changed.
* `initialization_converges` — so the last attempt does what it would have done as the only one.
-/

namespace Linkage

namespace Registry

/-! ## Attempts -/

/-- Enrolls these modules up to the first that cannot be enrolled, and counts nothing. -/
def attempt (files : Files) (r : Registry) (hs : List Handle) :
    Except RegistryError Unit × Registry :=
  ((enrollAll files r hs).1.map fun _ => (), (enrollAll files r hs).2)

variable {files files' : Files}

theorem attempt_nil (files : Files) (r : Registry) : r.attempt files [] = (.ok (), r) := rfl

theorem attempt_cons (files : Files) (r : Registry) (h : Handle) (hs : List Handle) :
    r.attempt files (h :: hs) =
      match r.enroll files h with
      | .error e => (.error e, r)
      | .ok none => r.attempt files hs
      | .ok (some r') => r'.attempt files hs := by
  cases he : r.enroll files h with
  | error e => simp only [attempt, enrollAll, he, Except.map]
  | ok o =>
    cases o with
    | none => simp only [attempt, enrollAll, he]
    | some r' =>
      cases hrest : enrollAll files r' hs with
      | mk result last => cases result <;> simp only [attempt, enrollAll, he, hrest, Except.map]

/-- An attempt that goes through is continued by the modules that come after. -/
theorem attempt_append {r r' : Registry} {hs : List Handle}
    (h : r.attempt files hs = (.ok (), r')) (ks : List Handle) :
    r.attempt files (hs ++ ks) = r'.attempt files ks := by
  induction hs generalizing r with
  | nil =>
    cases h
    rfl
  | cons k hs ih =>
    rw [attempt_cons] at h
    rw [List.cons_append, attempt_cons]
    split at h
    · cases h
    · exact ih h
    · exact ih h

/-- Wherever an attempt stops, it has gone through the modules before. -/
theorem attempt_reaches (files : Files) (r : Registry) (hs : List Handle) :
    ∃ done rest, hs = done ++ rest ∧
      r.attempt files done = (.ok (), (r.attempt files hs).2) := by
  induction hs generalizing r with
  | nil => exact ⟨[], [], rfl, rfl⟩
  | cons h hs ih =>
    cases he : r.enroll files h with
    | error e => exact ⟨[], h :: hs, rfl, by simp only [attempt_cons, he, attempt_nil]⟩
    | ok o =>
      cases o with
      | none =>
        obtain ⟨done, rest, hsplit, hdone⟩ := ih r
        refine ⟨h :: done, rest, by rw [hsplit, List.cons_append], ?_⟩
        simp only [attempt_cons, he, hdone]
      | some r' =>
        obtain ⟨done, rest, hsplit, hdone⟩ := ih r'
        refine ⟨h :: done, rest, by rw [hsplit, List.cons_append], ?_⟩
        simp only [attempt_cons, he, hdone]

/-! ## Names that are taken -/

theorem contains_iff {r : Registry} {name : String} :
    r.contains name = true ↔ ∃ e, r.entry? name = some e :=
  Option.isSome_iff_exists

theorem contains_of_enroll {r : Registry} {h : Handle} (he : r.enroll files h = .ok none) :
    r.contains h.name = true := by
  have hsome := isSome_of_enroll he
  rwa [resolve?, Option.isSome_map] at hsome

theorem enroll_of_contains {r : Registry} {h : Handle} (hc : r.contains h.name = true) :
    r.enroll files h = .ok none := by
  rw [enroll, if_pos hc]

/-- Modules whose names are taken are passed over, and nothing is read for them. -/
theorem attempt_of_contains {r : Registry} {hs : List Handle}
    (hc : ∀ h ∈ hs, r.contains h.name = true) : r.attempt files hs = (.ok (), r) := by
  induction hs with
  | nil => rfl
  | cons h hs ih =>
    rw [attempt_cons, enroll_of_contains (hc h List.mem_cons_self)]
    exact ih fun k hk => hc k (List.mem_cons_of_mem h hk)

theorem entry?_attempt {r : Registry} {name : String} {e : Entry} (he : r.entry? name = some e)
    (files : Files) (hs : List Handle) : Registry.entry? (r.attempt files hs).2 name = some e :=
  entry?_enrollAll he files hs

/-- What an attempt has gone through has its names taken. -/
theorem contains_of_attempt {r r' : Registry} {hs : List Handle}
    (h : r.attempt files hs = (.ok (), r')) : ∀ k ∈ hs, r'.contains k.name = true := by
  induction hs generalizing r with
  | nil => exact fun _ hk => nomatch hk
  | cons k hs ih =>
    have hkeep {s : Registry} (hs' : s.attempt files hs = (.ok (), r')) {e : Entry}
        (he : s.entry? k.name = some e) : r'.contains k.name = true := by
      have hlast := entry?_attempt he files hs
      rw [hs'] at hlast
      exact contains_iff.2 ⟨e, hlast⟩
    rw [attempt_cons] at h
    split at h
    · cases h
    · rename_i he
      obtain ⟨e, hentry⟩ := contains_iff.1 (contains_of_enroll he)
      exact List.forall_mem_cons.2 ⟨hkeep h hentry, ih h⟩
    · rename_i r₁ he
      obtain ⟨-, reference, -, rfl⟩ := enroll_ok he
      have hentry := entry?_put r.entries k.name k.name ⟨reference, k⟩
      rw [if_pos rfl] at hentry
      exact List.forall_mem_cons.2 ⟨hkeep h hentry, ih h⟩

/-! ## Files -/

/-- No file behind a module of the registry is another one there. -/
def SameFiles (r : Registry) (files files' : Files) : Prop :=
  ∀ name ∈ r.names, ∀ h ∈ r.resolve? name, ∀ path ∈ h.location, files'.get? path = files.get? path

instance (r : Registry) (files files' : Files) : Decidable (r.SameFiles files files') :=
  inferInstanceAs (Decidable (∀ name ∈ r.names, ∀ h ∈ r.resolve? name, ∀ path ∈ h.location,
    files'.get? path = files.get? path))

theorem SameFiles.get? {r : Registry} (h : r.SameFiles files files') {name : String} {e : Entry}
    (he : r.entry? name = some e) {path : String} (hp : e.handle.location = some path) :
    files'.get? path = files.get? path :=
  h name (Store.mem_names he) e.handle (by rw [resolve?, he]; rfl) path hp

/-- What can be referred to for a module depends on the file behind it only. -/
theorem hostReference_congr {h : Handle}
    (hf : ∀ path, h.location = some path → files'.get? path = files.get? path) :
    hostReference files' h = hostReference files h := by
  unfold hostReference
  cases hp : h.location with
  | none => rfl
  | some path => simp only [Reference.ofFile, Files.read, hf path hp]

theorem enroll_congr {h : Handle}
    (hf : ∀ path, h.location = some path → files'.get? path = files.get? path) (r : Registry) :
    r.enroll files' h = r.enroll files h := by
  simp only [enroll, hostReference_congr hf]

/-- An attempt can be repeated as long as the files behind what it has admitted are the same. -/
theorem attempt_congr {r r' : Registry} {hs : List Handle}
    (h : r.attempt files hs = (.ok (), r')) (hf : r'.SameFiles files files') :
    r.attempt files' hs = (.ok (), r') := by
  induction hs generalizing r with
  | nil => exact h
  | cons k hs ih =>
    rw [attempt_cons] at h ⊢
    cases he : r.enroll files k with
    | error e =>
      rw [he] at h
      cases h
    | ok o =>
      rw [he] at h
      cases o with
      | none =>
        -- the name is taken, so no file is read
        rw [enroll_of_contains (contains_of_enroll he)]
        exact ih h
      | some r₁ =>
        have hentry : r₁.entry? k.name = some ⟨(hostReference files k).toOption.join, k⟩ := by
          obtain ⟨-, reference, href, rfl⟩ := enroll_ok he
          rw [entry?_put, if_pos rfl, href]
          rfl
        have hlast := entry?_attempt hentry files hs
        rw [show (r₁.attempt files hs).2 = r' from congrArg Prod.snd h] at hlast
        rw [enroll_congr (fun path hp => hf.get? hlast hp), he]
        exact ih h

/-! ## What has begun -/

/-- The registry of an initialization that has gone through some of the first of these modules. -/
def Begun (files : Files) (modules : List Handle) (r : Registry) : Prop :=
  ∃ done rest, modules = done ++ rest ∧ empty.attempt files done = (.ok (), r)

theorem begun_empty (files : Files) (modules : List Handle) : Begun files modules empty :=
  ⟨[], modules, rfl, rfl⟩

namespace Begun

variable {modules : List Handle} {r : Registry}

/-- What is admitted already is passed over, and the rest is as if there had been no stop. -/
theorem attempt_eq (h : Begun files modules r) :
    r.attempt files modules = empty.attempt files modules := by
  obtain ⟨done, rest, rfl, hdone⟩ := h
  rw [attempt_append hdone, attempt_append (attempt_of_contains (contains_of_attempt hdone))]

theorem attempt (h : Begun files modules r) : Begun files modules (r.attempt files modules).2 := by
  rw [h.attempt_eq]
  exact attempt_reaches files empty modules

theorem ofSameFiles (h : Begun files modules r) (hf : r.SameFiles files files') :
    Begun files' modules r := by
  obtain ⟨done, rest, hsplit, hdone⟩ := h
  exact ⟨done, rest, hsplit, attempt_congr hdone hf⟩

theorem append (h : Begun files modules r) (more : List Handle) :
    Begun files (modules ++ more) r := by
  obtain ⟨done, rest, rfl, hdone⟩ := h
  exact ⟨done, rest ++ more, List.append_assoc _ _ _, hdone⟩

end Begun
end Registry

namespace Host

/-! ## Events -/

/-- An event leaves the files alone that are behind the modules that the linker has admitted. -/
def Undisturbed (host : Host) (e : Event) : Prop :=
  host.linker.registry.SameFiles host.files (host.after e).files

/-- Every event does when it happens. -/
def Calm (host : Host) : List Event → Prop
  | [] => True
  | e :: es => host.Undisturbed e ∧ (host.after e).Calm es

instance (host : Host) (e : Event) : Decidable (host.Undisturbed e) :=
  inferInstanceAs (Decidable (Registry.SameFiles _ _ _))

instance decidableCalm : (host : Host) → (history : List Event) → Decidable (host.Calm history)
  | _, [] => inferInstanceAs (Decidable True)
  | host, e :: es =>
    have := decidableCalm (host.after e) es
    inferInstanceAs (Decidable (host.Undisturbed e ∧ (host.after e).Calm es))

/-- The linker has yet to be initialized, and its registry is how far it has come. -/
structure Begun (host : Host) : Prop where
  uninitialized : host.linker.initialized = false
  registry : host.linker.registry.Begun host.files host.catalog.modules

variable {host : Host}

/-- Preparing the linker is an attempt at all that is loaded. -/
theorem prepare_attempt (h : host.linker.initialized = false) :
    host.prepare.2.linker.registry =
        (host.linker.registry.attempt host.files host.catalog.modules).2 ∧
      host.prepare.1 =
        (host.linker.registry.attempt host.files host.catalog.modules).1.mapError .registry := by
  obtain ⟨hfiles, hmodules, hregistry, -⟩ := host.attachLinker_eq
  unfold prepare
  rw [h, if_neg Bool.false_ne_true, ← hfiles, ← hmodules, ← hregistry]
  unfold initRegistry registry setRegistry Registry.attempt
  dsimp only
  split
  · rename_i e host' heq
    obtain ⟨herror, rfl⟩ := Prod.mk.inj heq
    exact ⟨rfl, by rw [herror]; rfl⟩
  · rename_i n host' heq
    obtain ⟨hok, rfl⟩ := Prod.mk.inj heq
    exact ⟨rfl, by rw [hok]; rfl⟩

/-- A compile that fails to prepare the linker does nothing else. -/
theorem compile_of_unprepared (request : Request) (h : host.linker.initialized = false)
    (hp : host.prepare.2.linker.initialized = false) :
    (host.compile request).2 = host.prepare.2 := by
  obtain ⟨-, ⟨-, hinit⟩ | ⟨e, -, herror, -⟩⟩ := prepare_of_uninitialized h
  · rw [hinit] at hp
    cases hp
  · rw [compile, show host.prepare = (.error (.registry e), host.prepare.2) from
      Prod.ext herror rfl]

/-- Without observation a load is no matter for the linker's registry. -/
theorem registry_link (hw : host.Wired) (ha : host.linker.attached = false) (interface : Interface)
    (symbols : Option Symbols) (location : Option String) (dynamic : Bool) :
    (host.link interface symbols location dynamic).2.linker.registry = host.linker.registry := by
  have hobservers : (host.catalog.link interface symbols location dynamic).2.observers.filter
      (· = .linker) = [] := by
    refine Eq.trans hw.observers ?_
    rw [ha, if_neg Bool.false_ne_true]
  unfold link
  dsimp only
  rw [registry_foldl_tell, hobservers]
  rfl

namespace Begun

theorem prepare (h : host.Begun) (hp : host.prepare.2.linker.initialized = false) :
    host.prepare.2.Begun := by
  obtain ⟨hfiles, hmodules, -⟩ := host.prepare_eq
  refine ⟨hp, ?_⟩
  rw [hfiles, hmodules, (prepare_attempt h.uninitialized).1]
  exact h.registry.attempt

theorem link (h : host.Begun) (hw : host.Wired) (ha : host.linker.attached = false)
    (interface : Interface) (symbols : Option Symbols) (location : Option String) (dynamic : Bool) :
    (host.link interface symbols location dynamic).2.Begun := by
  refine ⟨(host.frame_link _ _ _ _).initialized.trans h.uninitialized, ?_⟩
  rw [registry_link hw ha, link_files, link_modules]
  exact h.registry.append _

theorem after (h : host.Begun) (hw : host.Wired) (ha : host.linker.attached = false) {e : Event}
    (he : host.Undisturbed e) (hinit : (host.after e).linker.initialized = false) :
    (host.after e).Begun := by
  cases e with
  | writeFile path content => exact ⟨hinit, h.registry.ofSameFiles he⟩
  | makeDirectory path => exact ⟨hinit, h.registry.ofSameFiles he⟩
  | removeFile path => exact ⟨hinit, h.registry.ofSameFiles he⟩
  | addNative interface location => exact h.link hw ha interface none location false
  | loadImage image symbols =>
    show (host.loadImage image symbols).2.Begun
    unfold Host.loadImage
    split
    · exact h
    · exact h.link hw ha _ _ none true
  | prepare => exact h.prepare hinit
  | compile request =>
    have hp : host.prepare.2.linker.initialized = false :=
      (host.frame_compile request).initialized.symm.trans hinit
    rw [Host.after, compile_of_unprepared request h.uninitialized hp]
    exact h.prepare hp

theorem run (h : host.Begun) (hw : host.Wired)
    (hp : host.linker.config.observation = .snapshot) {history : List Event}
    (hcalm : host.Calm history) (hinit : (host.run history).linker.initialized = false) :
    (host.run history).Begun := by
  induction history generalizing host with
  | nil => exact h
  | cons e history ih =>
    have hafter := h.after hw (hw.attached_eq_false hp) hcalm.1 (uninitialized_of_run history hinit)
    exact ih hafter (hw.after e) ((congrArg _ (host.config_after e)).trans hp) hcalm.2 hinit

end Begun
end Host

/--
Let the linker of a host be fresh and not be told of loads. Let it fail to be initialized any number
of times, at whatever modules, while modules are loaded and files are written, but no file behind a
module that is already admitted becomes another one.

Each failure leaves the linker's registry with what comes of the first few modules. The next
initialization does what a first one does: it goes through exactly if all that is loaded can be
enrolled in an empty registry, with the same error if it does not, and the linker's registry is then
that registry, entry by entry.
-/
theorem initialization_converges {host : Host} {config : Config}
    (hfresh : host.linker = .fresh config) (hpolicy : config.observation = .snapshot)
    (hfirst : .linker ∉ host.catalog.observers) {history : List Event} (hcalm : host.Calm history)
    (hfailed : (host.run history).linker.initialized = false) :
    let pending := host.run history
    let once := Registry.empty.enrollAll pending.files pending.catalog.modules
    pending.linker.registry.Begun pending.files pending.catalog.modules ∧
      pending.prepare.2.linker.registry = once.2 ∧
      (pending.prepare.1 = .ok () ↔ ∃ n, once.1 = .ok n) ∧
      ∀ e, pending.prepare.1 = .error (.registry e) ↔ once.1 = .error e := by
  intro pending once
  have hbegun : pending.Begun := by
    refine Host.Begun.run ⟨?_, ?_⟩ (.of_fresh hfresh hfirst) ?_ hcalm hfailed
    · rw [hfresh]
      rfl
    · rw [hfresh]
      exact Registry.begun_empty _ _
    · rw [hfresh]
      exact hpolicy
  obtain ⟨hregistry, hresult⟩ := Host.prepare_attempt hbegun.uninitialized
  rw [hbegun.registry.attempt_eq] at hregistry hresult
  have houtcome : pending.prepare.1 = (once.1.map fun _ => ()).mapError .registry := hresult
  refine ⟨hbegun.registry, hregistry, ?_, fun e => ?_⟩
  · rw [houtcome]
    cases once.1 with
    | ok n => exact iff_of_true rfl ⟨n, rfl⟩
    | error e => exact iff_of_false nofun nofun
  · rw [houtcome]
    cases once.1 with
    | ok n => exact iff_of_false nofun nofun
    | error e' => simp [Except.map, Except.mapError]

/-! ### A file that is mended -/

def plain (name : String) : Interface := ⟨name, .release, [], [], []⟩

/-- The first attempt stops at `Core`; the second `Base` is passed over, so its file is not read. -/
def untilMended : List Event :=
  [.writeFile "base.mlnk" (plain "Base").encode, .writeFile "core.mlnk" [],
    .addNative (plain "Base") (some "base.mlnk"), .addNative (plain "Base") (some "core.mlnk"),
    .addNative (plain "Core") (some "core.mlnk"), .prepare,
    .addNative (plain "Late") (some "late.mlnk"), .writeFile "core.mlnk" (plain "Core").encode]

theorem initialization_converges_mended :
    let host := Host.fresh .default
    host.linker = .fresh .default ∧ Config.default.observation = .snapshot ∧
      .linker ∉ host.catalog.observers ∧ host.Calm untilMended ∧
      (host.run untilMended).linker.initialized = false ∧
      (host.run untilMended).linker.registry.contains "Base" = true ∧
      (host.run untilMended).linker.registry.contains "Core" = false ∧
      (host.run untilMended).prepare.1 = .ok () ∧
      (host.run untilMended).prepare.2.linker.registry =
        (Registry.empty.enrollAll (host.run untilMended).files
          (host.run untilMended).catalog.modules).2 ∧
      ((host.run untilMended).prepare.2.linker.registry.reference? "Core").isSome = true := by
  intro host
  have hfresh : host.linker = .fresh .default := rfl
  have hpolicy : Config.default.observation = .snapshot := rfl
  have hfirst : .linker ∉ host.catalog.observers := nofun
  have hcalm : host.Calm untilMended := by decide +kernel
  have hfailed : (host.run untilMended).linker.initialized = false := by decide +kernel
  have hall : ∃ n, (Registry.empty.enrollAll (host.run untilMended).files
      (host.run untilMended).catalog.modules).1 = .ok n := ⟨3, by decide +kernel⟩
  obtain ⟨-, hregistry, hgoes, -⟩ := initialization_converges hfresh hpolicy hfirst hcalm hfailed
  exact ⟨hfresh, hpolicy, hfirst, hcalm, hfailed, by decide +kernel, by decide +kernel,
    hgoes.2 hall, hregistry, by decide +kernel⟩

end Linkage
