import Linkage.Proofs.Host.Admission

/-!
# Linkage.Proofs.Host.Resolution

Which module a name stands for with the linker, said by what has happened.

* `Host.admitted`, `Host.compiledAs?` — what an event brings the linker: the modules that it admits,
  and the module that it compiles under a name.
* `resolve?_after`, `resolve?_run` — a compile replaces what a name stands for, an admission does
  not. So a name stands for what was compiled under it last, or else what was admitted under it
  first.
* `attached_run` — under continuous observation the linker subscribes at the first event that
  prepares it, and stays subscribed.
* `resolution_by_history` — and which modules are admitted under each policy.

Until the linker is initialized nothing can be compiled, and what fails to be initialized has
admitted modules in load order. Whatever else compiles into the catalog loads an image here.
-/

namespace Linkage

/-- Whether the linker is prepared at the event, for the first time or again. -/
def Event.prepares : Event → Bool
  | .prepare => true
  | .compile _ => true
  | .writeFile _ _ => false
  | .makeDirectory _ => false
  | .removeFile _ => false
  | .addNative _ _ => false
  | .loadImage _ _ => false

namespace Host

/-! ## Events -/

/-- What the linker enrolls when it is prepared. -/
def enrolled (host : Host) : List Handle :=
  if host.linker.initialized then []
  else host.linker.registry.admissions host.files host.catalog.modules

/-- What the linker takes note of when this module is loaded. -/
def observed (host : Host) (h : Handle) : List Handle :=
  if host.linker.attached then host.linker.registry.noted host.files h else []

/-- The modules that the linker admits at an event, in order. -/
def admitted (host : Host) : Event → List Handle
  | .addNative interface location => host.observed (host.addNative interface location).1
  | .prepare => host.enrolled
  | .compile _ => host.enrolled
  | .writeFile _ _ => []
  | .makeDirectory _ => []
  | .removeFile _ => []
  | .loadImage _ _ => []

/-- The module that an event compiles under a name. -/
def compiledAs? (host : Host) (name : String) : Event → Option Handle
  | .compile request => if request.module = name then host.compiled? request else none
  | _ => none

/-- Serving the other observers does nothing to the linker's registry. -/
theorem registry_foldl_tell (h : Handle) (os : List Observer) (host : Host) :
    (os.foldl (fun host o => host.tell h o) host).linker.registry =
      (os.filter (· = .linker)).foldl (fun r _ => r.observe host.files h)
        host.linker.registry := by
  induction os generalizing host with
  | nil => rfl
  | cons o os ih =>
    rw [List.foldl_cons, ih, tell_files]
    cases o with
    | linker => rfl
    | registry name => rfl
    | recorder name => rfl

theorem resolve?_addNative {host : Host} (hw : host.Wired) (interface : Interface)
    (location : Option String) (name : String) :
    (host.addNative interface location).2.resolve? name = (host.resolve? name).or
      ((host.admitted (.addNative interface location)).find? (·.name == name)) := by
  have hobservers : (host.catalog.link interface none location false).2.observers.filter
      (· = .linker) = if host.linker.attached then [.linker] else [] := hw.observers
  unfold resolve? addNative link
  dsimp only
  rw [registry_foldl_tell, hobservers]
  unfold admitted observed
  split
  · exact Registry.resolve?_observe _ _ _
  · exact (Option.or_none).symm

theorem resolve?_prepare (host : Host) (name : String) :
    host.prepare.2.resolve? name =
      (host.resolve? name).or (host.enrolled.find? (·.name == name)) := by
  unfold enrolled
  cases h : host.linker.initialized with
  | true =>
    rw [prepare_of_initialized h]
    exact (Option.or_none).symm
  | false =>
    rw [resolve?, (prepare_of_uninitialized h).1]
    exact Registry.resolve?_enrollAll _ _ _

/-- A compile without a module leaves the linker's registry as it was prepared. -/
theorem registry_compile_of_none {host : Host} {request : Request}
    (h : host.compiled? request = none) :
    (host.compile request).2.linker.registry = host.prepare.2.linker.registry := by
  unfold compiled? at h
  unfold compile at h ⊢
  generalize hp : host.prepare = outcome at h ⊢
  obtain ⟨result, prepared⟩ := outcome
  cases result with
  | error e => rfl
  | ok u =>
    have hnone : ∀ r, (prepared.build loadImage .linker prepared.linker.config.forceDebug
        request).1 = .ok r → r.module = none := by
      intro r hr
      dsimp only at h
      rw [hr] at h
      exact h
    exact congrArg (fun host : Host => host.linker.registry)
      (build_of_no_module atomic_loadImage hnone)

theorem resolve?_compile (host : Host) (request : Request) (name : String) :
    (host.compile request).2.resolve? name = (host.compiledAs? name (.compile request)).or
      ((host.resolve? name).or (host.enrolled.find? (·.name == name))) := by
  rw [← host.resolve?_prepare name]
  cases hc : host.compiled? request with
  | none =>
    rw [resolve?, registry_compile_of_none hc]
    simp only [compiledAs?, hc, ite_self, Option.none_or, resolve?]
  | some h =>
    obtain ⟨result, hcompile, hmodule⟩ := compile_of_compiled? hc
    rw [resolve?, (compile_ok hcompile hmodule).resolve?_eq, compiledAs?, hc]
    by_cases hname : name = request.module
    · rw [if_pos hname, if_pos hname.symm]
      rfl
    · rw [if_neg hname, if_neg (Ne.symm hname)]
      rfl

/-- One event: a compile replaces what its name stands for, an admission takes a free name. -/
theorem resolve?_after {host : Host} (hw : host.Wired) (e : Event) (name : String) :
    (host.after e).resolve? name = (host.compiledAs? name e).or
      ((host.resolve? name).or ((host.admitted e).find? (·.name == name))) := by
  cases e with
  | writeFile path content => exact (Option.or_none).symm
  | makeDirectory path => exact (Option.or_none).symm
  | removeFile path => exact (Option.or_none).symm
  | addNative interface location => exact resolve?_addNative hw interface location name
  | loadImage image symbols =>
    refine Eq.trans ?_ (Option.or_none).symm
    rcases host.loadImage_cases image symbols with heq | ⟨k, hl⟩
    · rw [after, heq]
    · exact congrArg (fun linker : Linker => linker.registry.resolve? name) hl.linker
  | prepare => exact host.resolve?_prepare name
  | compile request => exact host.resolve?_compile request name

theorem frame_compile (host : Host) (request : Request) :
    host.prepare.2.Frame (host.compile request).2 := by
  unfold compile
  split
  · rename_i hp
    rw [hp]
    exact .refl _
  · rename_i prepared hp
    rw [hp]
    exact prepared.frame_build _ _

theorem Wired.after {host : Host} (hw : host.Wired) (e : Event) : (host.after e).Wired := by
  cases e with
  | writeFile path content => exact ⟨hw.observers, hw.policy⟩
  | makeDirectory path => exact ⟨hw.observers, hw.policy⟩
  | removeFile path => exact ⟨hw.observers, hw.policy⟩
  | addNative interface location => exact (host.frame_link _ _ _ _).wired hw
  | loadImage image symbols => exact (host.frame_loadImage _ _).wired hw
  | prepare => exact hw.prepare
  | compile request => exact (host.frame_compile request).wired hw.prepare

/-! ## Histories -/

/-- The modules that the linker admits, in order. -/
def admittedIn (host : Host) : List Event → List Handle
  | [] => []
  | e :: es => host.admitted e ++ (host.after e).admittedIn es

/-- The module that was compiled under a name last. -/
def lastCompiledAs? (host : Host) (name : String) : List Event → Option Handle
  | [] => none
  | e :: es => ((host.after e).lastCompiledAs? name es).or (host.compiledAs? name e)

theorem resolve?_run {host : Host} (hw : host.Wired) (history : List Event) (name : String) :
    (host.run history).resolve? name = (host.lastCompiledAs? name history).or
      ((host.resolve? name).or ((host.admittedIn history).find? (·.name == name))) := by
  induction history generalizing host with
  | nil => exact (Option.or_none).symm
  | cons e history ih =>
    calc ((host.after e).run history).resolve? name
      _ = ((host.after e).lastCompiledAs? name history).or (((host.after e).resolve? name).or
            (((host.after e).admittedIn history).find? (·.name == name))) := ih (hw.after e)
      _ = _ := by
        rw [resolve?_after hw]
        simp only [lastCompiledAs?, admittedIn, List.find?_append, Option.or_assoc]

theorem admittedIn_append (host : Host) (first later : List Event) :
    host.admittedIn (first ++ later) =
      host.admittedIn first ++ (host.run first).admittedIn later := by
  induction first generalizing host with
  | nil => rfl
  | cons e first ih =>
    show host.admitted e ++ (host.after e).admittedIn (first ++ later) =
      host.admitted e ++ (host.after e).admittedIn first ++
        ((host.after e).run first).admittedIn later
    rw [ih, List.append_assoc]

theorem modules_after (host : Host) (e : Event) :
    host.catalog.modules <+: (host.after e).catalog.modules := by
  have hprepare : host.catalog.modules <+: host.prepare.2.catalog.modules :=
    host.prepare_eq.2.1.symm ▸ List.prefix_refl _
  cases e with
  | writeFile path content => exact List.prefix_refl _
  | makeDirectory path => exact List.prefix_refl _
  | removeFile path => exact List.prefix_refl _
  | addNative interface location => exact (host.frame_link _ _ _ _).modules
  | loadImage image symbols => exact (host.frame_loadImage _ _).modules
  | prepare => exact hprepare
  | compile request => exact hprepare.trans (host.frame_compile request).modules

theorem of_mem_observed {host : Host} {h k : Handle} (hk : k ∈ host.observed h) :
    host.linker.attached = true ∧ k = h ∧ k.dynamic = false ∧ k.location.isSome = true := by
  unfold observed at hk
  split at hk
  · rename_i hattached
    obtain ⟨rfl, hkind⟩ := Registry.eq_of_mem_noted hk
    exact ⟨hattached, rfl, hkind⟩
  · cases hk

theorem mem_of_mem_enrolled {host : Host} {k : Handle} (h : k ∈ host.enrolled) :
    k ∈ host.catalog.modules := by
  unfold enrolled at h
  split at h
  · cases h
  · exact Registry.mem_of_mem_admissions h

/-- What is admitted is loaded. -/
theorem mem_modules_after {host : Host} {e : Event} {k : Handle} (h : k ∈ host.admitted e) :
    k ∈ (host.after e).catalog.modules := by
  cases e with
  | writeFile path content => cases h
  | makeDirectory path => cases h
  | removeFile path => cases h
  | loadImage image symbols => cases h
  | prepare => exact (host.modules_after _).subset (mem_of_mem_enrolled h)
  | compile request => exact (host.modules_after _).subset (mem_of_mem_enrolled h)
  | addNative interface location =>
    obtain ⟨-, rfl, -⟩ := of_mem_observed h
    rw [after, addNative, link_modules]
    exact List.mem_append_right _ List.mem_cons_self

theorem modules_run (host : Host) (history : List Event) :
    host.catalog.modules <+: (host.run history).catalog.modules := by
  induction history generalizing host with
  | nil => exact List.prefix_refl _
  | cons e history ih => exact (host.modules_after e).trans (ih _)

theorem mem_modules_run {host : Host} {history : List Event} {k : Handle}
    (h : k ∈ host.admittedIn history) : k ∈ (host.run history).catalog.modules := by
  induction history generalizing host with
  | nil => cases h
  | cons e history ih =>
    rcases List.mem_append.1 h with h | h
    · exact ((host.after e).modules_run history).subset (mem_modules_after h)
    · exact ih h

/-! ## After the initialization -/

theorem frame_after {host : Host} (h : host.linker.initialized = true) (e : Event) :
    host.Frame (host.after e) := by
  cases e with
  | writeFile path content => exact ⟨rfl, rfl, rfl, rfl, List.prefix_refl _⟩
  | makeDirectory path => exact ⟨rfl, rfl, rfl, rfl, List.prefix_refl _⟩
  | removeFile path => exact ⟨rfl, rfl, rfl, rfl, List.prefix_refl _⟩
  | addNative interface location => exact host.frame_link _ _ _ _
  | loadImage image symbols => exact host.frame_loadImage _ _
  | prepare =>
    rw [after, prepare_of_initialized h]
    exact .refl host
  | compile request =>
    have hframe := host.frame_compile request
    rw [prepare_of_initialized h] at hframe
    exact hframe

theorem initialized_run {host : Host} (h : host.linker.initialized = true)
    (history : List Event) : (host.run history).linker.initialized = true := by
  induction history generalizing host with
  | nil => exact h
  | cons e history ih => exact ih ((frame_after h e).initialized.trans h)

/-- Later admissions are of modules that the linker is told of, which come with a file. -/
theorem admitted_of_initialized {host : Host} (h : host.linker.initialized = true)
    {history : List Event} {k : Handle} (hk : k ∈ host.admittedIn history) :
    host.linker.attached = true ∧ k.dynamic = false ∧ k.location.isSome = true := by
  induction history generalizing host with
  | nil => cases hk
  | cons e history ih =>
    have hframe := frame_after h e
    have henrolled : host.enrolled = [] := if_pos h
    rcases List.mem_append.1 hk with hk | hk
    · cases e with
      | writeFile path content => cases hk
      | makeDirectory path => cases hk
      | removeFile path => cases hk
      | loadImage image symbols => cases hk
      | prepare =>
        rw [admitted, henrolled] at hk
        cases hk
      | compile request =>
        rw [admitted, henrolled] at hk
        cases hk
      | addNative interface location =>
        obtain ⟨hattached, -, hkind⟩ := of_mem_observed hk
        exact ⟨hattached, hkind⟩
    · rw [← hframe.attached]
      exact ih (hframe.initialized.trans h) hk

/-! ## Until the initialization -/

theorem uninitialized_of_run {host : Host} (history : List Event)
    (h : (host.run history).linker.initialized = false) : host.linker.initialized = false := by
  cases hi : host.linker.initialized with
  | false => rfl
  | true =>
    rw [initialized_run hi] at h
    cases h

theorem initialized_of_compiledAs? {host : Host} {name : String} {e : Event} {h : Handle}
    (hc : host.compiledAs? name e = some h) : (host.after e).linker.initialized = true := by
  cases e with
  | compile request =>
    simp only [compiledAs?, Option.ite_none_right_eq_some] at hc
    obtain ⟨result, hcompile, -⟩ := compile_of_compiled? hc.2
    rw [after, (host.frame_compile request).initialized]
    cases hi : host.linker.initialized with
    | true => rw [prepare_of_initialized hi, hi]
    | false =>
      obtain ⟨-, ⟨-, hprepared⟩ | ⟨e, -, herror, -⟩⟩ := prepare_of_uninitialized hi
      · exact hprepared
      · -- a compile answers with the error of its preparation
        unfold compile at hcompile
        rw [show host.prepare = (.error (.registry e), host.prepare.2) from
          Prod.ext herror rfl] at hcompile
        cases hcompile
  | writeFile path content => cases hc
  | makeDirectory path => cases hc
  | removeFile path => cases hc
  | addNative interface location => cases hc
  | loadImage image symbols => cases hc
  | prepare => cases hc

theorem lastCompiledAs?_of_uninitialized {host : Host} {history : List Event}
    (h : (host.run history).linker.initialized = false) (name : String) :
    host.lastCompiledAs? name history = none := by
  induction history generalizing host with
  | nil => rfl
  | cons e history ih =>
    rw [lastCompiledAs?, ih h, Option.none_or]
    cases hc : host.compiledAs? name e with
    | none => rfl
    | some k =>
      have hinit := initialized_of_compiledAs? hc
      rw [uninitialized_of_run history h] at hinit
      cases hinit

theorem prepares_of_initializes {host : Host} {e : Event}
    (h : host.linker.initialized = false) (h' : (host.after e).linker.initialized = true) :
    e.prepares = true := by
  cases e with
  | prepare => rfl
  | compile request => rfl
  | writeFile path content => cases h.symm.trans h'
  | makeDirectory path => cases h.symm.trans h'
  | removeFile path => cases h.symm.trans h'
  | addNative interface location =>
    rw [after, addNative, (host.frame_link _ _ _ _).initialized, h] at h'
    cases h'
  | loadImage image symbols =>
    rw [after, (host.frame_loadImage _ _).initialized, h] at h'
    cases h'

/-- The event of the initialization admits what preparing the linker enrolls, all of it. -/
theorem admitted_of_initializes {host : Host} {e : Event}
    (h : host.linker.initialized = false) (h' : (host.after e).linker.initialized = true) :
    host.admitted e = host.enrolled ∧ host.prepare.2.linker.initialized = true := by
  have hprepares := prepares_of_initializes h h'
  cases e with
  | prepare => exact ⟨rfl, h'⟩
  | compile request => exact ⟨rfl, (host.frame_compile request).initialized.symm.trans h'⟩
  | writeFile path content => cases hprepares
  | makeDirectory path => cases hprepares
  | removeFile path => cases hprepares
  | addNative interface location => cases hprepares
  | loadImage image symbols => cases hprepares

/-- What has been admitted was loaded before the initialization, or it came later with a file. -/
theorem mem_admittedIn {host : Host} {before later : List Event} {e : Event}
    (hbefore : (host.run before).linker.initialized = false)
    (hafter : ((host.run before).after e).linker.initialized = true) {k : Handle}
    (hk : k ∈ host.admittedIn (before ++ e :: later)) :
    k ∈ (host.run before).catalog.modules ∨ k.dynamic = false ∧ k.location.isSome = true := by
  rw [admittedIn_append, admittedIn, List.mem_append, List.mem_append] at hk
  rcases hk with hk | hk | hk
  · exact .inl (mem_modules_run hk)
  · rw [(admitted_of_initializes hbefore hafter).1] at hk
    exact .inl (mem_of_mem_enrolled hk)
  · exact .inr (admitted_of_initialized hafter hk).2

/-- A name that stands for a module stands for the first of that name that was loaded. -/
def FirstLoaded (host : Host) : Prop :=
  ∀ name, host.resolve? name = none ∨
    host.resolve? name = host.catalog.modules.find? (·.name == name)

theorem eq_find?_of_prefix {o : Option Handle} {modules modules' : List Handle} {name : String}
    (h : o = none ∨ o = modules.find? (·.name == name)) (hp : modules <+: modules') :
    o = none ∨ o = modules'.find? (·.name == name) := by
  cases o with
  | none => exact .inl rfl
  | some k =>
    rcases h with h | h
    · cases h
    · exact .inr (hp.find?_eq_some h.symm).symm

/-- What is enrolled under a free name is the first module of that name, if anything. -/
theorem find?_enrolled {host : Host} (h : host.linker.initialized = false) {name : String}
    (hfree : host.resolve? name = none) :
    host.enrolled.find? (·.name == name) = host.catalog.modules.find? (·.name == name) ∨
      host.enrolled.find? (·.name == name) = none ∧
        host.prepare.2.linker.initialized = false := by
  unfold enrolled
  rw [h, if_neg Bool.false_ne_true]
  refine (Registry.find?_admissions host.catalog.modules host.linker.registry hfree).imp_right ?_
  intro ⟨hnone, e, herror⟩
  refine ⟨hnone, ?_⟩
  obtain ⟨-, ⟨⟨n, hok⟩, -⟩ | ⟨-, -, -, hinit⟩⟩ := prepare_of_uninitialized h
  · rw [herror] at hok
    cases hok
  · exact hinit

theorem FirstLoaded.after {host : Host} (hf : host.FirstLoaded) (hw : host.Wired)
    (hattached : host.linker.attached = false) {e : Event}
    (h : (host.after e).linker.initialized = false) : (host.after e).FirstLoaded := by
  intro name
  refine eq_find?_of_prefix ?_ (host.modules_after e)
  have hcompiled : host.compiledAs? name e = none := by
    cases hc : host.compiledAs? name e with
    | none => rfl
    | some k =>
      rw [initialized_of_compiledAs? hc] at h
      cases h
  rw [resolve?_after hw, hcompiled, Option.none_or]
  cases hr : host.resolve? name with
  | some k => exact .inr (by rw [Option.some_or, ← hr]; exact (hf name).resolve_left (by simp [hr]))
  | none =>
    rw [Option.none_or]
    have henrolled : host.enrolled.find? (·.name == name) = none ∨
        host.enrolled.find? (·.name == name) = host.catalog.modules.find? (·.name == name) :=
      (find?_enrolled (uninitialized_of_run [e] h) hr).symm.imp_left And.left
    cases e with
    | prepare => exact henrolled
    | compile request => exact henrolled
    | writeFile path content => exact .inl rfl
    | makeDirectory path => exact .inl rfl
    | removeFile path => exact .inl rfl
    | loadImage image symbols => exact .inl rfl
    | addNative interface location =>
      refine .inl ?_
      rw [admitted, observed, hattached]
      rfl

theorem config_after (host : Host) (e : Event) :
    (host.after e).linker.config = host.linker.config := by
  cases e with
  | prepare => exact host.prepare_eq.2.2.1
  | compile request => exact (host.frame_compile request).config.trans host.prepare_eq.2.2.1
  | writeFile path content => rfl
  | makeDirectory path => rfl
  | removeFile path => rfl
  | addNative interface location => exact (host.frame_link _ _ _ _).config
  | loadImage image symbols => exact (host.frame_loadImage _ _).config

theorem Wired.run {host : Host} (hw : host.Wired) (history : List Event) :
    (host.run history).Wired := by
  induction history generalizing host with
  | nil => exact hw
  | cons e history ih => exact ih (hw.after e)

theorem config_run (host : Host) (history : List Event) :
    (host.run history).linker.config = host.linker.config := by
  induction history generalizing host with
  | nil => rfl
  | cons e history ih => exact (ih _).trans (host.config_after e)

theorem Wired.attached_eq_false {host : Host} (hw : host.Wired)
    (h : host.linker.config.observation = .snapshot) : host.linker.attached = false := by
  cases hattached : host.linker.attached with
  | false => rfl
  | true => cases h.symm.trans (hw.policy hattached)

theorem FirstLoaded.run {host : Host} (hf : host.FirstLoaded) (hw : host.Wired)
    (hp : host.linker.config.observation = .snapshot) {history : List Event}
    (h : (host.run history).linker.initialized = false) : (host.run history).FirstLoaded := by
  induction history generalizing host with
  | nil => exact hf
  | cons e history ih =>
    have hafter := hf.after hw (hw.attached_eq_false hp) (uninitialized_of_run history h)
    exact ih hafter (hw.after e) ((congrArg _ (host.config_after e)).trans hp) h

/-- Without observation, initialization makes a name stand for the first module of that name. -/
theorem find?_admittedIn {host : Host} (hw : host.Wired) (hfree : ∀ name, host.resolve? name = none)
    (hp : host.linker.config.observation = .snapshot) {before later : List Event} {e : Event}
    (hbefore : (host.run before).linker.initialized = false)
    (hafter : ((host.run before).after e).linker.initialized = true) (name : String) :
    (host.admittedIn (before ++ e :: later)).find? (·.name == name) =
      (host.run before).catalog.modules.find? (·.name == name) := by
  have hstart := resolve?_run hw before name
  rw [lastCompiledAs?_of_uninitialized hbefore, hfree name, Option.none_or, Option.none_or]
    at hstart
  obtain ⟨henrolled, hprepared⟩ := admitted_of_initializes hbefore hafter
  have hlater : ((host.run before).after e).admittedIn later = [] := by
    refine List.eq_nil_iff_forall_not_mem.2 fun k hk => ?_
    have hattached := (hw.run before).after e |>.attached_eq_false (by
      rw [config_after, config_run, hp])
    rw [(admitted_of_initialized hafter hk).1] at hattached
    cases hattached
  rw [admittedIn_append, admittedIn, henrolled, hlater, List.append_nil, List.find?_append,
    ← hstart]
  have hfirst : (host.run before).FirstLoaded :=
    FirstLoaded.run (fun name => .inl (hfree name)) hw hp hbefore
  cases hr : (host.run before).resolve? name with
  | some k =>
    rw [Option.some_or, ← hr]
    exact (hfirst name).resolve_left (by simp [hr])
  | none =>
    rw [Option.none_or]
    refine (find?_enrolled hbefore hr).resolve_right fun h => ?_
    rw [hprepared] at h
    cases h.2

/-! ## Under continuous observation -/

/-- An initialized linker is told of loads if that is its policy. -/
def Subscribed (host : Host) : Prop :=
  host.linker.config.observation = .continuous → host.linker.initialized = true →
    host.linker.attached = true

theorem attached_attachLinker (host : Host) :
    host.attachLinker.linker.attached =
      (host.linker.attached || decide (host.linker.config.observation = .continuous)) := by
  unfold attachLinker
  split
  · rename_i h
    rw [h.2, decide_eq_true h.1, Bool.or_true]
  · rename_i h
    cases hattached : host.linker.attached with
    | true => rfl
    | false => rw [decide_eq_false fun hp => h ⟨hp, hattached⟩, Bool.or_false]

/-- Preparing subscribes, whether or not it goes through. -/
theorem attached_prepare {host : Host} (hs : host.Subscribed) :
    host.prepare.2.linker.attached =
      (host.linker.attached || decide (host.linker.config.observation = .continuous)) := by
  cases hinit : host.linker.initialized with
  | true =>
    rw [prepare_of_initialized hinit]
    by_cases hp : host.linker.config.observation = .continuous
    · rw [hs hp hinit, Bool.true_or]
    · rw [decide_eq_false hp, Bool.or_false]
  | false =>
    rw [← attached_attachLinker]
    unfold prepare initRegistry registry setRegistry
    rw [hinit, if_neg Bool.false_ne_true]
    dsimp only
    split
    · rename_i heq
      obtain ⟨-, rfl⟩ := Prod.mk.inj heq
      rfl
    · rename_i heq
      obtain ⟨-, rfl⟩ := Prod.mk.inj heq
      rfl

theorem attached_after {host : Host} (hs : host.Subscribed) (e : Event) :
    (host.after e).linker.attached = (host.linker.attached ||
      (decide (host.linker.config.observation = .continuous) && e.prepares)) := by
  have hother : host.linker.attached = (host.linker.attached ||
      (decide (host.linker.config.observation = .continuous) && false)) := by
    rw [Bool.and_false, Bool.or_false]
  have hprepare : host.prepare.2.linker.attached = (host.linker.attached ||
      (decide (host.linker.config.observation = .continuous) && true)) := by
    rw [attached_prepare hs, Bool.and_true]
  cases e with
  | prepare => exact hprepare
  | compile request => exact (host.frame_compile request).attached.trans hprepare
  | writeFile path content => exact hother
  | makeDirectory path => exact hother
  | removeFile path => exact hother
  | addNative interface location => exact (host.frame_link _ _ _ _).attached.trans hother
  | loadImage image symbols => exact (host.frame_loadImage _ _).attached.trans hother

theorem Subscribed.after {host : Host} (hs : host.Subscribed) (e : Event) :
    (host.after e).Subscribed := by
  intro hp hinit
  rw [config_after] at hp
  rw [attached_after hs, decide_eq_true hp, Bool.true_and]
  cases hbefore : host.linker.initialized with
  | true => rw [hs hp hbefore, Bool.true_or]
  | false => rw [prepares_of_initializes hbefore hinit, Bool.or_true]

/-- The linker is told of loads from the first event on that prepares it. -/
theorem attached_run {host : Host} (hs : host.Subscribed) (history : List Event) :
    (host.run history).linker.attached = (host.linker.attached ||
      (decide (host.linker.config.observation = .continuous) &&
        history.any Event.prepares)) := by
  induction history generalizing host with
  | nil =>
    rw [List.any_nil, Bool.and_false, Bool.or_false]
    rfl
  | cons e history ih =>
    refine (ih (hs.after e)).trans ?_
    rw [attached_after hs, config_after, List.any_cons, Bool.and_or_distrib_left, Bool.or_assoc]

/-- A subscribed linker takes note of a module under a free name exactly if its file permits it. -/
theorem admitted_addNative {host : Host} (hattached : host.linker.attached = true)
    {interface : Interface} (path : String) (hfree : host.resolve? interface.name = none) :
    (host.files.Permits path interface.name →
      host.admitted (.addNative interface (some path)) =
        [(host.addNative interface (some path)).1]) ∧
    (¬ host.files.Permits path interface.name →
      host.admitted (.addNative interface (some path)) = []) := by
  have hnoted : host.admitted (.addNative interface (some path)) =
      host.linker.registry.noted host.files (host.addNative interface (some path)).1 :=
    if_pos hattached
  rw [hnoted]
  exact Registry.noted_of_free (h := (host.addNative interface (some path)).1) rfl rfl hfree

/--
A module with a file is loaded under a free name while the linker is told of loads: what the name
stands for right after, and what is admitted first under it in the whole history.
-/
theorem resolve?_addNative_told {host : Host} (hw : host.Wired)
    (hfree : ∀ name, host.resolve? name = none) {first : List Event}
    (htold : (host.run first).linker.attached = true) (interface : Interface) (path : String)
    (hnone : (host.run first).resolve? interface.name = none) (rest : List Event) :
    let now := host.run first
    let h := (now.addNative interface (some path)).1
    let event := Event.addNative interface (some path)
    (now.files.Permits path interface.name →
      (now.after event).resolve? interface.name = some h ∧
        (host.admittedIn (first ++ event :: rest)).find? (·.name == interface.name) = some h) ∧
      (¬ now.files.Permits path interface.name →
        (now.after event).resolve? interface.name = none) := by
  intro now h event
  obtain ⟨hpermits, hrefuses⟩ := admitted_addNative htold path hnone
  have hnoted : (now.after event).resolve? interface.name =
      (now.admitted event).find? (·.name == interface.name) := by
    refine (resolve?_after (hw.run first) _ _).trans ?_
    rw [hnone]
    rfl
  -- Nothing of that name has been admitted before, or the name would not be free.
  have hbefore : (host.admittedIn first).find? (·.name == interface.name) = none := by
    have hrun := resolve?_run hw first interface.name
    rw [hnone, hfree, Option.none_or] at hrun
    exact (Option.or_eq_none_iff.1 hrun.symm).2
  refine ⟨fun hp => ?_, fun hp => by rw [hnoted, hrefuses hp, List.find?_nil]⟩
  have hfound : [h].find? (·.name == interface.name) = some h :=
    List.find?_cons_of_pos (beq_self_eq_true _)
  refine ⟨by rw [hnoted, hpermits hp, hfound], ?_⟩
  rw [admittedIn_append, admittedIn, hpermits hp, List.find?_append, hbefore, Option.none_or,
    List.find?_append, hfound, Option.some_or]

/-! ## Fresh linkers -/

/-- The linker of a host is not told of loads before it asks to be. -/
theorem Wired.of_fresh {host : Host} {config : Config} (hfresh : host.linker = .fresh config)
    (hfirst : .linker ∉ host.catalog.observers) : host.Wired := by
  refine ⟨?_, fun h => ?_⟩
  · rw [hfresh]
    refine List.filter_eq_nil_iff.2 fun o ho hlinker => hfirst ?_
    rwa [← of_decide_eq_true hlinker]
  · rw [hfresh] at h
    cases h

theorem attached_of_fresh {host : Host} {config : Config} (hfresh : host.linker = .fresh config)
    (history : List Event) : (host.run history).linker.attached =
      (decide (config.observation = .continuous) && history.any Event.prepares) := by
  have hs : host.Subscribed := by
    intro _ hinit
    rw [hfresh] at hinit
    cases hinit
  rw [attached_run hs, hfresh]
  exact Bool.false_or _

end Host

/--
Let the linker of a host be fresh and let it be initialized at the event `e`. From then on a name
stands for what was compiled under it last, or else for what was admitted under it first.

Without observation the latter is the first module of that name that was loaded when `e` happened.
Under any policy what was admitted is loaded by then, or it came later and with a file: what
is resolved beyond that was compiled here, under this name.

Under continuous observation, and only then, the linker is subscribed to loads by then, once. A
module with a file that is loaded from the first preparation on, even one that fails, is admitted
if its name is free and its file permits it, and otherwise not.
-/
theorem resolution_by_history {host : Host} {config : Config}
    (hfresh : host.linker = .fresh config) (hfirst : .linker ∉ host.catalog.observers)
    (before : List Event) (e : Event) (later : List Event)
    (hbefore : (host.run before).linker.initialized = false)
    (hafter : (host.run (before ++ [e])).linker.initialized = true) (name : String) :
    let loaded := (host.run before).catalog.modules
    let history := before ++ e :: later
    let resolved := (host.run history).resolve? name
    let compiled := host.lastCompiledAs? name history
    let admitted := (host.admittedIn history).find? (·.name == name)
    resolved = compiled.or admitted ∧
      (config.observation = .snapshot →
        admitted = loaded.find? (·.name == name) ∧
          ∀ h, resolved = some h → h ∉ loaded → compiled = some h) ∧
      (∀ h, resolved = some h → h ∉ loaded → h.dynamic = true ∨ h.location = none →
        compiled = some h) ∧
      (host.run history).catalog.observers.filter (· = .linker) =
        (if config.observation = .continuous then [.linker] else []) ∧
      (config.observation = .continuous → ∀ first interface path rest,
        history = first ++ .addNative interface (some path) :: rest →
        first.any Event.prepares = true → interface.name = name →
        (host.run first).resolve? name = none →
        let now := host.run first
        let h := (now.addNative interface (some path)).1
        let noted := (now.after (.addNative interface (some path))).resolve? name
        (now.files.Permits path name → noted = some h ∧ admitted = some h) ∧
          (¬ now.files.Permits path name → noted = none)) := by
  intro loaded history resolved compiled admitted
  have hw : host.Wired := .of_fresh hfresh hfirst
  have hfree : ∀ name, host.resolve? name = none := by
    intro name
    rw [Host.resolve?, hfresh]
    rfl
  have hinit : ((host.run before).after e).linker.initialized = true := by
    rwa [Host.run_append] at hafter
  have hresolved : resolved = compiled.or admitted := by
    refine (Host.resolve?_run hw history name).trans ?_
    rw [hfree name, Option.none_or]
  -- What is resolved was compiled here unless it was admitted.
  have hadmitted {h : Handle} (hr : resolved = some h) :
      compiled = some h ∨ admitted = some h := by
    rw [hresolved] at hr
    exact (Option.or_eq_some_iff.1 hr).imp_right And.right
  refine ⟨hresolved, fun hp => ?_, fun h hr hnew hkind => (hadmitted hr).resolve_right fun ha => ?_,
    ?_, fun hp first interface path rest hsplit hprepares hname hnone => ?_⟩
  · have hloaded : admitted = loaded.find? (·.name == name) :=
      Host.find?_admittedIn hw hfree (hfresh ▸ hp) hbefore hinit name
    refine ⟨hloaded, fun h hr hnew => (hadmitted hr).resolve_right fun ha => ?_⟩
    exact hnew (List.mem_of_find?_eq_some (hloaded.symm.trans ha))
  · obtain ⟨hdynamic, hlocation⟩ :=
      (Host.mem_admittedIn hbefore hinit (List.mem_of_find?_eq_some ha)).resolve_left hnew
    rcases hkind with hkind | hkind
    · cases hkind.symm.trans hdynamic
    · rw [hkind] at hlocation
      cases hlocation
  · have hprepares : history.any Event.prepares = true :=
      List.any_eq_true.2 ⟨e, List.mem_append_right _ List.mem_cons_self,
        Host.prepares_of_initializes hbefore hinit⟩
    rw [(hw.run history).observers, Host.attached_of_fresh hfresh, hprepares, Bool.and_true]
    simp only [decide_eq_true_eq]
  · have htold : (host.run first).linker.attached = true := by
      rw [Host.attached_of_fresh hfresh, decide_eq_true hp, hprepares]
      rfl
    subst hname
    obtain ⟨hadmits, hrefuses⟩ :=
      Host.resolve?_addNative_told hw hfree htold interface path hnone rest
    refine ⟨fun hpermits => ⟨(hadmits hpermits).1, ?_⟩, hrefuses⟩
    show (host.admittedIn history).find? _ = _
    rw [hsplit]
    exact (hadmits hpermits).2

/-! ### Two modules of one name, a third that is compiled, and one that is watched for -/

def native (name : String) : Event := .addNative ⟨name, .release, [], [], []⟩ none

def twoCores : List Event := [native "Core", native "Core"]

def watching : Host := .fresh ⟨false, .continuous⟩

def late : Interface := ⟨"Late", .release, [], [], []⟩

/-- The image of a module is written, and then the module is loaded. -/
def lateLoad : List Event := [.writeFile "late" late.encode, .addNative late (some "late")]

/--
First a name stands for the module that was loaded first, then for the compiled one. A host that
is watching admits what comes with a file, and no other host does.
-/
theorem resolution_by_history_replaced :
    let host := Host.fresh .default
    let later := lateLoad ++ [.compile ⟨"Core", [⟨"const MAX = 10;", none⟩], false⟩]
    host.linker = .fresh .default ∧ .linker ∉ host.catalog.observers ∧
      (host.run twoCores).linker.initialized = false ∧
      (host.run (twoCores ++ [.prepare])).linker.initialized = true ∧
      (host.run (twoCores ++ .prepare :: lateLoad)).resolve? "Core" =
        (host.run twoCores).catalog.modules.find? (·.name == "Core") ∧
      (host.run (twoCores ++ .prepare :: lateLoad)).resolve? "Late" = none ∧
      (∃ h, (host.run (twoCores ++ .prepare :: later)).resolve? "Core" = some h ∧
        h ∉ (host.run twoCores).catalog.modules ∧
        host.lastCompiledAs? "Core" (twoCores ++ .prepare :: later) = some h) ∧
      (watching.run (twoCores ++ [.prepare])).linker.initialized = true ∧
      (watching.run (twoCores ++ .prepare :: lateLoad)).catalog.observers.filter (· = .linker) =
        [.linker] ∧
      ∃ h, (watching.run (twoCores ++ .prepare :: lateLoad)).resolve? "Late" = some h ∧
        h.location = some "late" := by
  intro host later
  have hfresh : host.linker = .fresh .default := rfl
  have hfirst : .linker ∉ host.catalog.observers := nofun
  have hbefore : (host.run twoCores).linker.initialized = false := by decide +kernel
  have hafter : (host.run (twoCores ++ [.prepare])).linker.initialized = true := by decide +kernel
  have hwatching : (watching.run (twoCores ++ [.prepare])).linker.initialized = true := by
    decide +kernel
  obtain ⟨hcore, hloaded, -⟩ := resolution_by_history hfresh hfirst twoCores .prepare lateLoad
    hbefore hafter "Core"
  obtain ⟨-, hcompiled, -⟩ := resolution_by_history hfresh hfirst twoCores .prepare later hbefore
    hafter "Core"
  have hfresh' : watching.linker = .fresh ⟨false, .continuous⟩ := rfl
  have hbefore' : (watching.run twoCores).linker.initialized = false := by decide +kernel
  obtain ⟨-, -, -, hsubscribed, hwatched⟩ := resolution_by_history hfresh' nofun twoCores .prepare
    lateLoad hbefore' hwatching "Late"
  have hnone : host.lastCompiledAs? "Core" (twoCores ++ .prepare :: lateLoad) = none := by
    decide +kernel
  have hlate : (host.run (twoCores ++ .prepare :: lateLoad)).resolve? "Late" = none := by
    decide +kernel
  have hthird : ((host.run (twoCores ++ .prepare :: later)).resolve? "Core").map (·.id) =
      some 3 := by
    decide +kernel
  have hids : ∀ k ∈ (host.run twoCores).catalog.modules, k.id < 3 := by decide +kernel
  obtain ⟨h, hresolved, hid⟩ := Option.map_eq_some_iff.1 hthird
  have hnew : h ∉ (host.run twoCores).catalog.modules := fun hmem => by
    have := hids h hmem
    omega
  have hdecode : Interface.decode late.encode = .ok late := by decide +kernel
  have hnoted := (hwatched rfl (twoCores ++ [.prepare, .writeFile "late" late.encode]) late "late"
    [] rfl rfl rfl (by decide +kernel)).1 (.inr ⟨late.encode, late, by decide +kernel, hdecode, rfl⟩)
  refine ⟨hfresh, hfirst, hbefore, hafter, ?_, hlate,
    ⟨h, hresolved, hnew, (hcompiled rfl).2 h hresolved hnew⟩, hwatching, hsubscribed, _, hnoted.1,
    rfl⟩
  rw [hcore, hnone, Option.none_or, (hloaded rfl).1]

end Linkage
