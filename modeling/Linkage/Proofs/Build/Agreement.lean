import Linkage.Proofs.Build.Mirrors
import Linkage.Proofs.Evaluation.Naming

/-!
# Linkage.Proofs.Build.Agreement

`debug_release_agree`: debug and release builds of the same sources agree, and a debug module has
at run time the values that the release build stores.

This is about a module that no module of the snapshot refers to.
-/

namespace Linkage

open Evaluation

/-! ## Debug and release -/

/-- References are only ever made by reading images. -/
def Snapshot.FromImages (snapshot : Snapshot) : Prop :=
  ∀ r ∈ snapshot.references, ∃ image, Interface.decode image = .ok r.interface

/-- The resolver has every module of the snapshot under its name. -/
def Resolver.Provides (resolver : Resolver) (snapshot : Snapshot) : Prop :=
  ∀ m r, snapshot.get? m = some r → ∃ k, resolver.get? m = some k ∧ k.interface = r.interface

/-- The interfaces are equal but for their optimization and the initializers of constants. -/
structure Interface.AgreesWith (i j : Interface) : Prop where
  name : i.name = j.name
  references : i.references = j.references
  types : i.types = j.types
  constants : i.constants.map (fun c => (c.name, c.kind)) = j.constants.map fun c => (c.name, c.kind)

theorem Program.interface_agreesWith (p : Program) (a b : Optimization) :
    (p.interface a).AgreesWith (p.interface b) where
  name := rfl
  references := rfl
  types := rfl
  constants := by
    simp only [Program.interface, List.map_filterMap]
    refine List.filterMap_congr fun x _ => ?_
    simp only [Program.constDef?]
    cases x.2.value <;> rfl

theorem Snapshot.FromImages.shallow {snapshot : Snapshot} (h : snapshot.FromImages) {m : String}
    {r : Reference} (hr : snapshot.get? m = some r) : r.interface.Shallow := by
  obtain ⟨image, himage⟩ := h r (Snapshot.mem_of_get? hr)
  exact (Interface.sound_of_decode himage).2

/-- Nothing refers back to a module that the snapshot does not have. -/
theorem Mirrors.of_provides {snapshot : Snapshot} {resolver : Resolver} {root : Handle}
    (hself : snapshot.get? root.name = none) (himages : snapshot.FromImages)
    (hresolver : resolver.Provides snapshot) :
    Mirrors snapshot resolver root fun _ _ => True where
  handles := fun m r _ hr => hresolver m r hr
  shallow := fun _ _ hr => himages.shallow hr
  closed := fun _ _ _ _ _ _ _ _ _ _ => trivial
  inside := by
    intro x c v _ hc
    simp only [Snapshot.const?, hself] at hc
    cases hc

/--
Debug and release builds of the same sources agree, and a debug module has at run time the values
that the release image stores.
-/
theorem debug_release_agree (a b : Options) (ha : a.optimization = .debug)
    (hb : b.optimization = .release) (module : String) (sources : List Source)
    (snapshot : Snapshot) (hself : snapshot.get? module = none) (himages : snapshot.FromImages) :
    let p := Program.ofSources module sources snapshot
    (compile a module sources snapshot).diagnostics =
        (compile b module sources snapshot).diagnostics ∧
      (compile a module sources snapshot).output.isSome =
        (compile b module sources snapshot).output.isSome ∧
      ∀ d r, (compile a module sources snapshot).output = some d →
        (compile b module sources snapshot).output = some r →
        d.image = (p.interface .debug).encode ∧ r.image = (p.interface .release).encode ∧
          (∀ o, (p.interface o).Fits →
            Interface.decode (p.interface o).encode = .ok (p.interface o)) ∧
          (p.interface .debug).AgreesWith (p.interface .release) ∧
          ∀ c ∈ (p.interface .release).constants, ∃ v, c.init = .value v ∧ v.kind = c.kind ∧
            ∀ (h : Handle) (resolver : Resolver), h.interface = p.interface .debug →
              resolver.Provides snapshot → h.evaluate c.name resolver = .ok v := by
  have hboth : (compile a module sources snapshot).output.isSome =
      (compile b module sources snapshot).output.isSome := by
    rw [Bool.eq_iff_iff, isSome_output, isSome_output]
  refine ⟨?_, hboth, fun d r hd hr => ?_⟩
  · unfold compile
    dsimp only
    split <;> rfl
  obtain ⟨hw, hdimage⟩ := compile_output hd
  obtain ⟨-, hrimage⟩ := compile_output hr
  rw [ha] at hdimage
  rw [hb] at hrimage
  refine ⟨hdimage, hrimage, hw.decode_encode, Program.interface_agreesWith _ _ _, fun c hc => ?_⟩
  obtain ⟨id, decl, t, v, hconst, rfl⟩ := hw.exists_of_mem_constants hc
  refine ⟨v, rfl, rfl, fun h resolver hroot hresolver => ?_⟩
  have hname : h.name = module := by
    rw [Handle.name, hroot]
    exact congrArg Scope.module hw.scope_eq
  have hmirrors : Mirrors snapshot resolver h fun _ _ => True :=
    .of_provides (hname ▸ hself) himages hresolver
  obtain ⟨n, hn⟩ := hw.hasValue_of_constantAt hmirrors hroot (fun _ => True)
    (fun _ _ _ _ _ _ => ⟨fun _ _ _ => trivial, fun _ _ => trivial⟩) id decl t v trivial hconst
  exact Handle.evaluate_of_hasValue hn

/-! ### A chain through another module -/

/-- A module whose constant `Y` is stored as `2 * 3`. -/
def products : Interface :=
  { name := "B"
    optimization := .debug
    references := []
    types := []
    constants := [⟨"Y", .int, .expr (.binary .mul (.literal (.int 2)) (.literal (.int 3)))⟩] }

def withProducts : Snapshot := ⟨[⟨products, .memory⟩]⟩

def sumSources : List Source := [⟨"const X = B.Y + 1;", none⟩]

theorem debug_release_agree_sum :
    withProducts.get? "A" = none ∧ withProducts.FromImages ∧
      (compile .debug "A" sumSources withProducts).output.isSome = true ∧
        ∀ (h : Handle) (resolver : Resolver),
          h.interface = (Program.ofSources "A" sumSources withProducts).interface .debug →
            resolver.Provides withProducts → h.evaluate "X" resolver = .ok (.int 7) := by
  have hself : withProducts.get? "A" = none := by decide +kernel
  have himages : withProducts.FromImages := by
    intro r hr
    obtain rfl := List.mem_singleton.1 hr
    exact ⟨products.encode, by decide +kernel⟩
  have hdebug : (compile .debug "A" sumSources withProducts).output.isSome = true := by
    decide +kernel
  obtain ⟨-, hsuccess, hagree⟩ :=
    debug_release_agree .debug .release rfl rfl "A" sumSources withProducts hself himages
  refine ⟨hself, himages, hdebug, fun h resolver hh hresolver => ?_⟩
  obtain ⟨d, hd⟩ := Option.isSome_iff_exists.1 hdebug
  obtain ⟨r, hr⟩ := Option.isSome_iff_exists.1 (hsuccess ▸ hdebug)
  obtain ⟨-, -, -, -, hvalues⟩ := hagree d r hd hr
  have hconstants : ((Program.ofSources "A" sumSources withProducts).interface .release).constants =
      [⟨"X", .int, .value (.int 7)⟩] := by decide +kernel
  obtain ⟨v, hv, -, heval⟩ := hvalues ⟨"X", .int, .value (.int 7)⟩ (by simp [hconstants])
  cases hv
  exact heval h resolver hh hresolver

end Linkage
