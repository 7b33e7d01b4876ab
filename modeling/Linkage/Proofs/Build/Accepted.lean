import Linkage.Proofs.Build.Acceptance
import Linkage.Proofs.Interface.Decoded
import Linkage.Proofs.Script.Sound

/-!
# Linkage.Proofs.Build.Accepted

What a compile emits for a well-formed program.

* `getElem?_constants` — the constant at each place, with its term and its value.
* `interface_proper`, `interface_shallow` — the image of what is emitted can be read back, if the
  lengths in it fit.
-/

namespace Linkage

/-! ## Scripts -/

theorem Script.Item.sound_of_mem_items {sources : List Source} {i : Script.Item}
    (h : i ∈ Source.items sources) : i.Sound := by
  obtain ⟨s, -, hi⟩ := List.mem_flatMap.1 h
  exact Script.sound_of_mem_parse hi

theorem Contents.height_le {module : String} {sources : List Source} {snapshot : Snapshot}
    {c : Script.ConstDecl} (h : c ∈ (ofSources module sources snapshot).consts) :
    c.value.height ≤ maxLevels := by
  obtain ⟨i, hi, hc⟩ := List.mem_filterMap.1 h
  have hsound := Script.Item.sound_of_mem_items hi
  cases i with
  | type t => cases hc
  | const c' =>
    cases hc
    exact hsound

theorem Contents.modifiers_lt {module : String} {sources : List Source} {snapshot : Snapshot}
    {t : Script.TypeDecl} (h : t ∈ (ofSources module sources snapshot).types) :
    t.modifiers.bits < 4 := by
  obtain ⟨i, hi, ht⟩ := List.mem_filterMap.1 h
  have hsound := Script.Item.sound_of_mem_items hi
  cases i with
  | type t' =>
    cases ht
    exact hsound
  | const c => cases ht

theorem Scope.height_toConstExpr {s : Scope} {e : Script.Expr} {t : Term} (h : s.Resolves e t)
    (ownName : Nat → String) : (t.toConstExpr ownName).height = e.height := by
  induction h with
  | literal => rfl
  | own _ => rfl
  | imported _ => rfl
  | negate _ ih => exact congrArg (· + 1) ih
  | binary _ _ ihl ihr =>
    rw [Term.toConstExpr, ConstExpr.height, ihl, ihr]
    rfl

/-! ## Well-formed programs -/

namespace WellFormed

variable {module : String} {sources : List Source} {snapshot : Snapshot}

theorem contents_sound (h : WellFormed module sources snapshot) :
    (Scope.ofSources module sources snapshot).contents.Sound := by
  rw [Scope.contents_ofSources]
  exact h.sound

theorem allFound (h : WellFormed module sources snapshot) :
    (Scope.ofSources module sources snapshot).AllFound := by
  have hs := h.contents_sound
  refine fun c hc => (Scope.pathsFound_iff hs.names).2 (hs.paths c.decl ?_)
  exact List.mem_map_of_mem hc

theorem acyclic (h : WellFormed module sources snapshot) (u : Nat) :
    ¬ (Scope.constGraph (Scope.ofSources module sources snapshot).terms).Reaches u u :=
  (Scope.represents_constGraph h.contents_sound.names h.allFound).acyclic_iff.2
    h.contents_sound.noConstCycle u

/-- The value that a compile finds for the constant at this place. -/
def value (module : String) (sources : List Source) (snapshot : Snapshot) (id : Nat) :
    Option Value :=
  Scope.known (Scope.ofSources module sources snapshot).evaluated.1 id

theorem consistent (h : WellFormed module sources snapshot) :
    (Scope.ofSources module sources snapshot).Consistent (value module sources snapshot) :=
  fun id _ _ hc ht => Scope.known_evaluated (h.acyclic id) hc ht

/-- A place with its declaration, its term and its value. -/
structure ConstantAt (module : String) (sources : List Source) (snapshot : Snapshot) (id : Nat)
    (c : Declared Script.ConstDecl) (t : Term) (v : Value) : Prop where
  declared : (Scope.ofSources module sources snapshot).decls.constants[id]? = some c
  resolves : (Scope.ofSources module sources snapshot).Resolves c.decl.value t
  value : value module sources snapshot id = some v

theorem ConstantAt.unique {id : Nat} {c c' : Declared Script.ConstDecl} {t t' : Term} {v v' : Value}
    (h : ConstantAt module sources snapshot id c t v)
    (h' : ConstantAt module sources snapshot id c' t' v') : c' = c ∧ t' = t ∧ v' = v := by
  obtain rfl := Option.some_inj.1 (h'.declared.symm.trans h.declared)
  exact ⟨rfl, h'.resolves.unique h.resolves, Option.some_inj.1 (h'.value.symm.trans h.value)⟩

theorem ConstantAt.height_le {id : Nat} {c : Declared Script.ConstDecl} {t : Term} {v : Value}
    (h : ConstantAt module sources snapshot id c t v) (ownName : Nat → String) :
    (t.toConstExpr ownName).height ≤ maxLevels := by
  have hmem := Scope.mem_consts_iff.2 ⟨id, c, h.declared, rfl⟩
  rw [Scope.contents_ofSources] at hmem
  rw [Scope.height_toConstExpr h.resolves]
  exact Contents.height_le hmem

theorem exists_constantAt (h : WellFormed module sources snapshot) {id : Nat}
    {c : Declared Script.ConstDecl}
    (hc : (Scope.ofSources module sources snapshot).decls.constants[id]? = some c) :
    ∃ t v, ConstantAt module sources snapshot id c t v := by
  have hs := h.contents_sound
  obtain ⟨v, hv⟩ := hs.values c.decl (Scope.mem_consts_iff.2 ⟨id, c, hc, rfl⟩)
  obtain ⟨t, ht⟩ := Scope.exists_resolves (h.allFound c (List.mem_of_getElem? hc))
  refine ⟨t, v, hc, ht, ?_⟩
  rw [h.consistent id c t hc ht]
  exact Scope.eval_of_denotes hs.names h.allFound h.consistent hv ht

theorem exists_of_dependency (h : WellFormed module sources snapshot) {id j : Nat}
    {c : Declared Script.ConstDecl} {t : Term} {v w : Value}
    (hc : ConstantAt module sources snapshot id c t v) (hj : j ∈ t.dependencies)
    (hw : value module sources snapshot j = some w) :
    ∃ d u, ConstantAt module sources snapshot j d u w := by
  obtain ⟨p, -, htarget⟩ := (Scope.mem_dependencies hc.resolves).1 hj
  obtain ⟨-, hid⟩ := Scope.constTarget_eq_own.1 htarget
  obtain ⟨d, hd, -⟩ := (Scope.constId?_eq_some h.contents_sound.names).1 hid
  obtain ⟨u, w', hu⟩ := h.exists_constantAt hd
  obtain rfl : w' = w := Option.some_inj.1 (hu.value.symm.trans hw)
  exact ⟨d, u, hu⟩

theorem ofSources_eq (h : WellFormed module sources snapshot) :
    Program.ofSources module sources snapshot =
      { scope := Scope.ofSources module sources snapshot
        types := (Scope.ofSources module sources snapshot).resolvedTypes
        constants := List.zipWith ResolvedConst.mk (Scope.ofSources module sources snapshot).terms
          (Scope.ofSources module sources snapshot).evaluated.1.toList
        modules := (Scope.ofSources module sources snapshot).resolveTypes.modules ++
          (Scope.ofSources module sources snapshot).resolveConsts.modules
        diagnostics := (Program.ofSources module sources snapshot).diagnostics } := by
  have hnil := (Program.registration_eq_nil module sources snapshot).2
    ⟨h.sound.names, h.sound.modifiers⟩
  have hscope : (Program.ofSources module sources snapshot).scope =
      Scope.ofSources module sources snapshot :=
    congrArg (Scope.mk module snapshot) (Program.scope_ofUnits hnil)
  have hrest : Program.ofSources module sources snapshot =
      { scope := (Program.ofSources module sources snapshot).scope
        types := (Program.ofSources module sources snapshot).scope.resolveTypes.1
        constants := (Program.ofSources module sources snapshot).scope.resolveConsts.1
        modules := (Program.ofSources module sources snapshot).scope.resolveTypes.modules ++
          (Program.ofSources module sources snapshot).scope.resolveConsts.modules
        diagnostics := (Program.ofSources module sources snapshot).diagnostics } := rfl
  rw [hrest, hscope, Scope.resolveTypes_eq, Scope.resolveConsts_eq,
    Scope.markedTypes_of_sound h.contents_sound]

theorem scope_eq (h : WellFormed module sources snapshot) :
    (Program.ofSources module sources snapshot).scope = Scope.ofSources module sources snapshot :=
  congrArg Program.scope h.ofSources_eq

theorem types_eq (h : WellFormed module sources snapshot) :
    (Program.ofSources module sources snapshot).types =
      (Scope.ofSources module sources snapshot).resolvedTypes :=
  congrArg Program.types h.ofSources_eq

/-! ## Constants -/

/-- A constant as it is emitted. -/
def constDef (s : Scope) (optimization : Optimization) (name : String) (t : Term) (v : Value) :
    ConstDef :=
  ⟨name, v.kind, match optimization with
    | .debug => .expr (t.toConstExpr s.constName)
    | .release => .value v⟩

theorem getElem?_filterMap {α β : Type} {f : α → Option β} {xs : List α}
    (h : ∀ x ∈ xs, (f x).isSome = true) (i : Nat) : (xs.filterMap f)[i]? = xs[i]?.bind f := by
  induction xs generalizing i with
  | nil => rfl
  | cons x xs ih =>
    obtain ⟨y, hy⟩ := Option.isSome_iff_exists.1 (h x List.mem_cons_self)
    rw [List.filterMap_cons_some hy]
    cases i with
    | zero => exact hy.symm
    | succ i => exact ih (fun z hz => h z (List.mem_cons_of_mem x hz)) i

theorem getElem?_resolved (h : WellFormed module sources snapshot) {id : Nat}
    {c : Declared Script.ConstDecl} {t : Term} {v : Value}
    (hc : ConstantAt module sources snapshot id c t v) :
    (Program.ofSources module sources snapshot).constants[id]? = some ⟨some t, some v⟩ := by
  have hterm := Scope.getElem?_terms.2 ⟨c, hc.declared, hc.resolves⟩
  have hv := hc.value
  have hvalue : (Scope.ofSources module sources snapshot).evaluated.1.toList[id]? =
      some (some v) := by
    rw [Array.getElem?_toList]
    unfold WellFormed.value Scope.known at hv
    cases hx : (Scope.ofSources module sources snapshot).evaluated.1[id]? with
    | none => simp [hx] at hv
    | some x => simpa [hx] using hv
  rw [h.ofSources_eq, List.getElem?_zipWith, hterm, hvalue]

theorem constDef?_eq (h : WellFormed module sources snapshot) (optimization : Optimization)
    (c : Declared Script.ConstDecl) (t : Term) (v : Value) :
    (Program.ofSources module sources snapshot).constDef? optimization c ⟨some t, some v⟩ =
      some (constDef (Scope.ofSources module sources snapshot) optimization c.decl.name.name t v) := by
  rw [← h.scope_eq]
  cases optimization <;> rfl

theorem getElem?_constants (h : WellFormed module sources snapshot) (optimization : Optimization)
    (id : Nat) :
    ((Program.ofSources module sources snapshot).interface optimization).constants[id]? =
      ((Scope.ofSources module sources snapshot).decls.constants.zip
        (Program.ofSources module sources snapshot).constants)[id]?.bind fun x =>
          (Program.ofSources module sources snapshot).constDef? optimization x.1 x.2 := by
  rw [← h.scope_eq]
  refine getElem?_filterMap (fun x hx => ?_) id
  obtain ⟨c, r⟩ := x
  obtain ⟨i, hi⟩ := List.mem_iff_getElem?.1 hx
  obtain ⟨hc, hr⟩ := List.getElem?_zip_eq_some.1 hi
  rw [h.scope_eq] at hc
  obtain ⟨t, v, hc⟩ := h.exists_constantAt hc
  rw [h.getElem?_resolved hc] at hr
  show ((Program.ofSources module sources snapshot).constDef? optimization c r).isSome = true
  obtain rfl := Option.some_inj.1 hr
  rw [h.constDef?_eq]
  rfl

/-- Every constant is emitted at its place. -/
theorem getElem?_constants_eq (h : WellFormed module sources snapshot) (optimization : Optimization)
    {id : Nat} {c : Declared Script.ConstDecl} {t : Term} {v : Value}
    (hc : ConstantAt module sources snapshot id c t v) :
    ((Program.ofSources module sources snapshot).interface optimization).constants[id]? =
      some (constDef (Scope.ofSources module sources snapshot) optimization c.decl.name.name t v) := by
  have hzip : ((Scope.ofSources module sources snapshot).decls.constants.zip
      (Program.ofSources module sources snapshot).constants)[id]? =
        some (c, ⟨some t, some v⟩) :=
    List.getElem?_zip_eq_some.2 ⟨hc.declared, h.getElem?_resolved hc⟩
  rw [h.getElem?_constants, hzip]
  exact h.constDef?_eq optimization c t v

/-- And nothing else is. -/
theorem exists_of_mem_constants (h : WellFormed module sources snapshot)
    {optimization : Optimization} {d : ConstDef}
    (hd : d ∈ ((Program.ofSources module sources snapshot).interface optimization).constants) :
    ∃ id c t v, ConstantAt module sources snapshot id c t v ∧
      d = constDef (Scope.ofSources module sources snapshot) optimization c.decl.name.name t v := by
  obtain ⟨id, hd⟩ := List.mem_iff_getElem?.1 hd
  have hd' := hd
  rw [h.getElem?_constants] at hd'
  obtain ⟨x, hx, -⟩ := Option.bind_eq_some_iff.1 hd'
  obtain ⟨hc, -⟩ := List.getElem?_zip_eq_some.1 hx
  obtain ⟨t, v, hc⟩ := h.exists_constantAt hc
  rw [h.getElem?_constants_eq optimization hc] at hd
  exact ⟨id, x.1, t, v, hc, (Option.some_inj.1 hd).symm⟩

/-- A constant is found under its name. -/
theorem const?_interface (h : WellFormed module sources snapshot) (optimization : Optimization)
    {id : Nat} {c : Declared Script.ConstDecl} {t : Term} {v : Value}
    (hc : ConstantAt module sources snapshot id c t v) :
    ((Program.ofSources module sources snapshot).interface optimization).const?
        c.decl.name.name =
      some (constDef (Scope.ofSources module sources snapshot) optimization c.decl.name.name t v) := by
  have hmem := List.mem_of_getElem? (h.getElem?_constants_eq optimization hc)
  have hsome : (((Program.ofSources module sources snapshot).interface optimization).const?
      c.decl.name.name).isSome = true :=
    List.find?_isSome.2 ⟨_, hmem, beq_self_eq_true _⟩
  obtain ⟨d, hd⟩ := Option.isSome_iff_exists.1 hsome
  have hname := Interface.name_of_const? hd
  obtain ⟨id', c', t', v', hc', rfl⟩ := h.exists_of_mem_constants (Interface.mem_of_const? hd)
  have hids := (Scope.constId?_eq_some h.contents_sound.names).2 ⟨c, hc.declared, rfl⟩
  rw [(Scope.constId?_eq_some h.contents_sound.names).2 ⟨c', hc'.declared, hname⟩] at hids
  obtain rfl := Option.some_inj.1 hids
  obtain ⟨rfl, rfl, rfl⟩ := hc.unique hc'
  exact hd

/-! ## Images -/

theorem interface_proper (h : WellFormed module sources snapshot) (optimization : Optimization) :
    ((Program.ofSources module sources snapshot).interface optimization).Proper where
  types := by
    intro d hd
    obtain ⟨i, hi⟩ := List.mem_iff_getElem?.1 hd
    rw [Program.interface, List.getElem?_zipWith] at hi
    split at hi
    · rename_i t r ht _
      cases hi
      rw [h.scope_eq] at ht
      have hmem := Scope.mem_types_iff.2 ⟨i, t, ht, rfl⟩
      rw [Scope.contents_ofSources] at hmem
      exact ⟨Contents.modifiers_lt hmem, rfl⟩
    · cases hi
  constants := by
    intro d hd v hv
    obtain ⟨id, c, t, w, -, rfl⟩ := h.exists_of_mem_constants hd
    cases optimization <;> cases hv
    rfl

theorem interface_shallow (h : WellFormed module sources snapshot) (optimization : Optimization) :
    ((Program.ofSources module sources snapshot).interface optimization).Shallow := by
  intro d hd e he
  obtain ⟨id, c, t, w, hc, rfl⟩ := h.exists_of_mem_constants hd
  cases optimization with
  | release => cases he
  | debug =>
    cases he
    exact hc.height_le _

theorem decode_encode (h : WellFormed module sources snapshot) (o : Optimization)
    (hfits : ((Program.ofSources module sources snapshot).interface o).Fits) :
    Interface.decode ((Program.ofSources module sources snapshot).interface o).encode =
      .ok ((Program.ofSources module sources snapshot).interface o) :=
  Wire.unwrap_of_reads (Interface.reads hfits (h.interface_proper o) (h.interface_shallow o))

end WellFormed

theorem compile_output {options : Options} {module : String} {sources : List Source}
    {snapshot : Snapshot} {o : Output}
    (h : (compile options module sources snapshot).output = some o) :
    WellFormed module sources snapshot ∧
      o.image =
        ((Program.ofSources module sources snapshot).interface options.optimization).encode := by
  refine ⟨Program.noErrors_ofSources.1 (isSome_output.1 (Option.isSome_of_eq_some h)), ?_⟩
  unfold compile at h
  dsimp only at h
  split at h
  · cases h
  · cases h
    rfl

end Linkage
