import Linkage.Proofs.Host.Admission

/-!
# Linkage.Proofs.Host.Atomicity

`failure_changes_nothing`: a compile succeeds or leaves the host as it was. The host is all there
is to see: files, loaded modules, the number of the next one, what every registry has under every
name, and what every recorder was told.

Everything that can stand against a request (`Host.Refuses`) is found out before the first change.
-/

namespace Linkage

/-- Whether a module came of a compile. -/
def succeeded : Except CompileError BuildResult → Bool
  | .ok r => r.success
  | .error _ => false

theorem module_eq_none_of_not_succeeded {result : Except CompileError BuildResult}
    (h : succeeded result = false) : ∀ r, result = .ok r → r.module = none := by
  rintro r rfl
  exact Option.not_isSome_iff_eq_none.1 (Bool.eq_false_iff.1 h)

theorem not_succeeded_of_module_eq_none {result : Except CompileError BuildResult}
    (h : ∀ r, result = .ok r → r.module = none) : succeeded result = false := by
  cases result with
  | error e => rfl
  | ok r => exact congrArg Option.isSome (h r rfl)

namespace Host

variable {load : Loader} {id : RegistryId} {forceDebug : Bool} {host host' : Host}
  {request : Request} {h : Handle}

/-! ## Refusals -/

theorem Builds.not_refuses (hb : host.Builds load id forceDebug request h host') :
    ¬ host.Refuses load id forceDebug request := by
  obtain ⟨o, loaded, -, ho, hl, -⟩ := hb.output
  intro hrefuses
  cases hrefuses with
  | name hname => exact Bool.eq_false_iff.1 hname hb.name
  | sources hd herror =>
    have hnone := output_eq_none_iff.2 ⟨_, hd, herror⟩
    cases ho.symm.trans hnone
  | image ho' herror =>
    obtain rfl := Option.some_inj.1 (ho.symm.trans ho')
    rw [hl] at herror
    cases herror

/-- A build comes to nothing exactly if something stands against it. -/
theorem not_succeeded_iff_refuses (hload : load.Atomic) :
    succeeded (host.build load id forceDebug request).1 = false ↔
      host.Refuses load id forceDebug request := by
  rcases build_cases hload id forceDebug host request with ⟨hrefuses, hnone, -⟩ | ⟨h, hb, hresult⟩
  · exact iff_of_true (not_succeeded_of_module_eq_none hnone) hrefuses
  · rw [hresult]
    exact iff_of_false (fun h => nomatch h) hb.not_refuses

/-! ## Changes -/

/-- A build that goes through adds to the loaded modules. -/
theorem Builds.ne (hb : host.Builds loadImage id forceDebug request h host') : host' ≠ host := by
  obtain ⟨o, loaded, reference, -, hl, -, rfl⟩ := hb.output
  intro heq
  have hmodules := (loadImage_ok hl).modules
  rw [← loaded.setRegistry_catalog _ id, heq] at hmodules
  simp at hmodules

theorem build_eq_self_iff :
    (host.build loadImage id forceDebug request).2 = host ↔
      succeeded (host.build loadImage id forceDebug request).1 = false := by
  constructor
  · intro heq
    rcases build_cases atomic_loadImage id forceDebug host request with ⟨-, hnone, -⟩ | ⟨h, hb, -⟩
    · exact not_succeeded_of_module_eq_none hnone
    · cases hb.ne heq
  · exact fun h => build_of_no_module atomic_loadImage (module_eq_none_of_not_succeeded h)

theorem compile_of_initialized (hinit : host.linker.initialized = true) :
    host.compile request =
      host.build loadImage .linker host.linker.config.forceDebug request := by
  simp only [compile, prepare_of_initialized hinit]

/--
A build does not succeed exactly if the name is no module name, an error is reported about the
sources, or the loader turns down what was emitted; and then nothing has changed and nobody was
told of anything. A build through the catalog that does succeed is a change. The same holds of the
compiles of an initialized linker.
-/
theorem failure_changes_nothing (host : Host) (request : Request) :
    (∀ (load : Loader) (id : RegistryId) (forceDebug : Bool), load.Atomic →
      (succeeded (host.build load id forceDebug request).1 = false ↔
        host.Refuses load id forceDebug request) ∧
      (succeeded (host.build load id forceDebug request).1 = false →
        (host.build load id forceDebug request).2 = host)) ∧
    (∀ (id : RegistryId) (forceDebug : Bool),
      (host.build loadImage id forceDebug request).2 = host ↔
        succeeded (host.build loadImage id forceDebug request).1 = false) ∧
    (host.linker.initialized = true →
      (succeeded (host.compile request).1 = false ↔
        host.Refuses loadImage .linker host.linker.config.forceDebug request) ∧
      ((host.compile request).2 = host ↔ succeeded (host.compile request).1 = false)) := by
  refine ⟨fun load id forceDebug hload => ⟨not_succeeded_iff_refuses hload, fun h => ?_⟩,
    fun id forceDebug => build_eq_self_iff, fun hinit => ?_⟩
  · exact build_of_no_module hload (module_eq_none_of_not_succeeded h)
  · rw [compile_of_initialized hinit]
    exact ⟨not_succeeded_iff_refuses atomic_loadImage, build_eq_self_iff⟩

/-! ### A second version that comes to nothing -/

/-- A loader that turns down everything. -/
def refuseAll : Loader := fun host _ _ => (.error (.image (.trailingBytes 1)), host)

theorem atomic_refuseAll : refuseAll.Atomic := by
  refine ⟨fun h => ?_, fun h => ?_⟩
  · exact (Prod.mk.inj h).2.symm
  · cases (Prod.mk.inj h).1

def shapes : Request := ⟨"Shapes", [⟨"type Square \x7b\x7d", none⟩], false⟩

def brokenShapes : Request := ⟨"Shapes", [⟨"type A extends Nowhere.B \x7b\x7d", none⟩], true⟩

/-- A host with a first version of a module and a record of what was loaded. -/
def withShapes : Host :=
  ((((fresh .default).openRecorder "log").subscribe (.recorder "log")).compile shapes).2

theorem failure_keeps_first_version :
    withShapes.linker.initialized = true ∧ refuseAll.Atomic ∧
    (withShapes.compile brokenShapes).2 = withShapes ∧
    (withShapes.build refuseAll .linker false shapes).2 = withShapes ∧
    withShapes.Refuses refuseAll .linker false shapes ∧
    (withShapes.resolve? "Shapes").isSome = true ∧
    (withShapes.recorders.get? "log").map List.length = some 1 := by
  have hinit : withShapes.linker.initialized = true := by decide +kernel
  have hbroken : succeeded (withShapes.compile brokenShapes).1 = false := by decide +kernel
  have hrefused : succeeded (withShapes.build refuseAll .linker false shapes).1 = false := by
    decide +kernel
  obtain ⟨-, -, hcompile⟩ := failure_changes_nothing withShapes brokenShapes
  obtain ⟨hbuild, -, -⟩ := failure_changes_nothing withShapes shapes
  obtain ⟨hrefuses, hsame⟩ := hbuild refuseAll .linker false atomic_refuseAll
  exact ⟨hinit, atomic_refuseAll, (hcompile hinit).2.2 hbroken, hsame hrefused,
    hrefuses.1 hrefused, by decide +kernel, by decide +kernel⟩

end Host

end Linkage
