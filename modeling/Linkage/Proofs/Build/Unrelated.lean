import Linkage.Proofs.Build.Inherited
import Linkage.Proofs.Build.References

/-!
# Linkage.Proofs.Build.Unrelated

A module of the snapshot that nothing leads into has no influence on a compile, even if it has the
name of the module being compiled.

* `Interface.followed` — the modules that an interface leads into, as far as a compile follows it.
* `Snapshot.Beside` — two snapshots that differ at most in one module, which no other one follows.
* `exprValue?_eq`, `importedFields_eq` — the walks through other modules never come to it.
* `typeRef_against`, `constTarget_against` — nor does a path of the sources.
* `compile_unrelated` — so the compile is the same with both.

How long the walk along imported bases may get depends on all modules of a snapshot, also on those
it never comes to. But a longer bound makes no difference: `importedFields_congr`.
-/

namespace Linkage

/-! ## Other modules -/

/-- The modules that bases and initializers lead into. The types of fields are not looked into. -/
def Interface.followed (i : Interface) : List String :=
  i.types.filterMap (fun t => t.base.bind TypeRef.module?) ++
    i.constants.flatMap fun c =>
      match c.init with
      | .value _ => []
      | .expr e => e.refs.filterMap Prod.fst

namespace Snapshot

/-- The snapshots differ at most in the module `N`, into which no other one leads. -/
structure Beside (N : String) (a b : Snapshot) : Prop where
  get? : ∀ m, m ≠ N → a.get? m = b.get? m
  unfollowed : ∀ m r, m ≠ N → a.get? m = some r → N ∉ r.interface.followed

/-- One more module, if the others do not lead into it. -/
theorem beside_cons {a : Snapshot} {r : Reference}
    (h : ∀ x ∈ a.references, r.name ∉ x.interface.followed) :
    a.Beside r.name ⟨r :: a.references⟩ where
  get? := by
    intro m hm
    have hne : ¬ (r.name == m) = true := fun he => hm (beq_iff_eq.1 he).symm
    exact (List.find?_cons_of_neg (p := fun x : Reference => x.name == m) hne).symm
  unfollowed := fun _ x _ hx => h x (mem_of_get? hx)

namespace Beside

variable {N m x : String} {a b : Snapshot}

theorem type?_eq (h : Beside N a b) (hm : m ≠ N) (x : String) : a.type? m x = b.type? m x := by
  simp only [type?, h.get? m hm]

theorem const?_eq (h : Beside N a b) (hm : m ≠ N) (x : String) : a.const? m x = b.const? m x := by
  simp only [const?, h.get? m hm]

theorem base_ne (h : Beside N a b) (hm : m ≠ N) {t : TypeDef} (ht : a.type? m x = some t)
    {base : TypeRef} (hbase : t.base = some base) : base.module? ≠ some N := by
  intro hN
  unfold type? at ht
  split at ht
  · cases ht
  · rename_i r hr
    refine h.unfollowed m r hm hr (List.mem_append_left _ (List.mem_filterMap.2 ⟨t, ?_, ?_⟩))
    · exact Interface.mem_of_type? ht
    · rw [hbase]
      exact hN

theorem refs_ne (h : Beside N a b) (hm : m ≠ N) {c : ConstDef} (hc : a.const? m x = some c)
    {e : ConstExpr} (he : c.init = .expr e) : ∀ q ∈ e.refs, q.1 ≠ some N := by
  intro q hq hN
  obtain ⟨r, hr, hc⟩ := const?_eq_some.1 hc
  refine h.unfollowed m r hm hr (List.mem_append_right _ (List.mem_flatMap.2 ⟨c, ?_, ?_⟩))
  · exact Interface.mem_of_const? hc
  · rw [he]
    exact List.mem_filterMap.2 ⟨q, hq, hN⟩

/-- The walk along references stays out of `N`. -/
theorem exprValue?_eq (h : Beside N a b) (budget : Nat) :
    ∀ {m : String} {e : ConstExpr}, m ≠ N → (∀ q ∈ e.refs, q.1 ≠ some N) →
      a.exprValue? budget m e = b.exprValue? budget m e := by
  induction budget with
  | zero => exact fun _ _ => rfl
  | succ budget ih =>
    intro m e hm he
    cases e with
    | literal v => rfl
    | ref target name =>
      have htarget : target.getD m ≠ N := by
        cases target with
        | none => exact hm
        | some n => exact fun hn => he _ List.mem_cons_self (congrArg some hn)
      simp only [exprValue?]
      rw [← h.const?_eq htarget]
      cases hc : a.const? (target.getD m) name with
      | none => rfl
      | some c =>
        dsimp only
        split
        · rfl
        · rename_i hinit
          exact ih htarget (h.refs_ne htarget hc hinit)
    | negate e => simp only [exprValue?, ih (e := e) hm he]
    | binary op l r =>
      simp only [exprValue?, ih hm fun q hq => he q (List.mem_append_left _ hq),
        ih hm fun q hq => he q (List.mem_append_right _ hq)]

theorem constValue?_eq (h : Beside N a b) (hm : m ≠ N) {c : ConstDef}
    (hc : a.const? m x = some c) : a.constValue? m c = b.constValue? m c := by
  unfold constValue?
  split
  · rfl
  · rename_i e he
    exact h.exprValue?_eq _ hm (h.refs_ne hm hc he)

end Beside
end Snapshot

namespace Scope

variable {s : Scope} {N : String} {b : Snapshot}

/-! ## The same scope over another snapshot -/

def against (s : Scope) (b : Snapshot) : Scope := { s with snapshot := b }

/-- The walk along bases stays out of `N`. -/
theorem importedFields_against (h : s.snapshot.Beside N b) (n : Nat) :
    ∀ (visited : List String) {base : TypeRef}, base.module? ≠ some N →
      (s.against b).importedFields n visited base = s.importedFields n visited base := by
  induction n with
  | zero => exact fun _ _ _ => rfl
  | succ n ih =>
    intro visited base hbase
    cases base with
    | builtin k => simp [importedFields]
    | own y => simp [importedFields]
    | imported m x =>
      have hm : m ≠ N := fun hm => hbase (congrArg some hm)
      rw [importedFields_succ, importedFields_succ, against, ← h.type?_eq hm]
      split
      · rfl
      · split
        · rfl
        · rename_i t ht
          refine congrArg _ ?_
          split
          · rfl
          · exact ih _ hbase
          · rename_i next _ hnext
            exact ih _ (h.base_ne hm ht hnext)

/-- The bounds of the two scopes differ, and both cover all types of both snapshots. -/
theorem importedFields_eq (h : s.snapshot.Beside N b) {base : TypeRef}
    (hbase : base.module? ≠ some N) :
    (s.against b).importedFields (s.against b).importedBound [] base =
      s.importedFields s.importedBound [] base := by
  let n := max (s.against b).importedBound s.importedBound
  have hleft := (s.against b).unvisited_le_importedBound []
  have hright := s.unvisited_le_importedBound []
  calc (s.against b).importedFields (s.against b).importedBound [] base
      = (s.against b).importedFields n [] base :=
        importedFields_congr base hleft (hleft.trans (Nat.le_max_left _ _))
    _ = s.importedFields n [] base := importedFields_against h n [] hbase
    _ = s.importedFields s.importedBound [] base :=
        importedFields_congr base (hright.trans (Nat.le_max_right _ _)) hright

/-! ## Paths -/

theorem external_against (h : s.snapshot.Beside N b) {p : Script.Path}
    (hp : ¬ s.contents.LeadsInto p N) {q : Script.Ident} (hq : s.outward? p = some q) :
    (s.against b).external q = s.external q := by
  obtain ⟨hqual, hself⟩ := outward?_eq_some.1 hq
  have hne : q.name ≠ N := by
    rintro rfl
    exact hp ⟨hself, q, hqual, rfl⟩
  have hget : (s.against b).snapshot.get? q.name = s.snapshot.get? q.name := (h.get? _ hne).symm
  rw [external, external, hget]

/-- A path that does not lead into `N` leads to the same over both snapshots. -/
theorem typeRef_against (h : s.snapshot.Beside N b) {p : Script.Path}
    (hp : ¬ s.contents.LeadsInto p N) : (s.against b).typeRef p = s.typeRef p := by
  have hsame : (s.against b).outward? p = s.outward? p := rfl
  unfold typeRef
  rw [hsame]
  cases hq : s.outward? p with
  | none => rfl
  | some q =>
    dsimp only
    rw [external_against h hp hq]

theorem constTarget_against (h : s.snapshot.Beside N b) {p : Script.Path}
    (hp : ¬ s.contents.LeadsInto p N) : (s.against b).constTarget p = s.constTarget p := by
  have hsame : (s.against b).outward? p = s.outward? p := rfl
  unfold constTarget
  rw [hsame]
  cases hq : s.outward? p with
  | none => rfl
  | some q =>
    dsimp only
    rw [external_against h hp hq]

theorem typeRef_ne {p : Script.Path} (hp : ¬ s.contents.LeadsInto p N) {r : TypeRef}
    (hr : (s.typeRef p).found = .ok r) : r.module? ≠ some N := by
  intro hN
  obtain ⟨q, hq, rfl⟩ := outward_of_module? hr hN
  obtain ⟨hqual, hself⟩ := outward?_eq_some.1 hq
  exact hp ⟨hself, q, hqual, rfl⟩

/-! ## Types -/

theorem baseRefusal?_against (h : s.snapshot.Beside N b) (name : String) (path : Script.Path)
    {r : TypeRef} (hr : r.module? ≠ some N) :
    (s.against b).baseRefusal? name path r = s.baseRefusal? name path r := by
  cases r with
  | builtin k => rfl
  | own n => rfl
  | imported m n =>
    dsimp only [baseRefusal?, against]
    rw [h.type?_eq fun hm => hr (congrArg some hm)]

theorem resolveBase_against (h : s.snapshot.Beside N b) (unit : Nat) {t : Script.TypeDecl}
    (ht : ∀ p ∈ t.paths, ¬ s.contents.LeadsInto p N) :
    (s.against b).resolveBase unit t = s.resolveBase unit t := by
  unfold resolveBase
  cases hb : t.base with
  | none => rfl
  | some path =>
    have hp := ht path (List.mem_append_left _ (by rw [hb]; exact List.mem_cons_self))
    dsimp only
    rw [typeRef_against h hp]
    cases hr : (s.typeRef path).found with
    | error e => rfl
    | ok r =>
      dsimp only
      rw [baseRefusal?_against h _ _ (typeRef_ne hp hr)]

theorem resolveBase_ne {unit : Nat} {t : Script.TypeDecl}
    (ht : ∀ p ∈ t.paths, ¬ s.contents.LeadsInto p N) {base : TypeRef}
    (hbase : (s.resolveBase unit t).1 = some base) : base.module? ≠ some N := by
  unfold resolveBase at hbase
  split at hbase
  · cases hbase
  · rename_i path hb
    have hp := ht path (List.mem_append_left _ (by rw [hb]; exact List.mem_cons_self))
    split at hbase
    · cases hbase
    · rename_i r hr
      split at hbase
      · cases hbase
      · cases hbase
        exact typeRef_ne hp hr

theorem resolveFields_against (h : s.snapshot.Beside N b) (unit : Nat) (type : String)
    {fs : List Script.FieldDecl} (hfs : ∀ f ∈ fs, ¬ s.contents.LeadsInto f.type N) :
    ∀ seen, (s.against b).resolveFields unit type seen fs = s.resolveFields unit type seen fs := by
  induction fs with
  | nil => exact fun _ => rfl
  | cons f fs ih =>
    intro seen
    have hrest := ih fun g hg => hfs g (List.mem_cons_of_mem _ hg)
    simp only [resolveFields, hrest, typeRef_against h (hfs f List.mem_cons_self)]

theorem resolveType_against (h : s.snapshot.Beside N b) {t : Declared Script.TypeDecl}
    (ht : ∀ p ∈ t.decl.paths, ¬ s.contents.LeadsInto p N) :
    (s.against b).resolveType t = s.resolveType t := by
  have hfields : ∀ f ∈ t.decl.fields, ¬ s.contents.LeadsInto f.type N :=
    fun f hf => ht _ (List.mem_append_right _ (List.mem_map_of_mem hf))
  simp only [resolveType, resolveBase_against h t.unit ht, resolveFields_against h _ _ hfields]

theorem baseChain_against (types : List ResolvedType) (start n : Nat) :
    ∀ id, (s.against b).baseChain types start n id = s.baseChain types start n id := by
  induction n with
  | zero => exact fun _ => rfl
  | succ n ih =>
    intro id
    have hbase : (s.against b).baseId? = s.baseId? := rfl
    have hname : (s.against b).typeName = s.typeName := rfl
    simp only [baseChain, ih, hbase, hname]

theorem reportBaseCycle_against (types : List ResolvedType) :
    (s.against b).reportBaseCycle types = s.reportBaseCycle types := by
  funext cycle
  unfold reportBaseCycle
  simp only [baseChain_against]
  rfl

theorem inherited_against (h : s.snapshot.Beside N b) {types : Array Linked}
    (htypes : ∀ (id : Nat) (x : Linked), types[id]? = some x →
      ∀ base, x.1.base = some base → base.module? ≠ some N) (n : Nat) :
    ∀ id, (s.against b).inherited types n id = s.inherited types n id := by
  induction n with
  | zero => exact fun _ => rfl
  | succ n ih =>
    intro id
    unfold inherited
    split
    · rfl
    · rename_i t link hid
      split
      · rfl
      · rename_i base hbase
        exact importedFields_eq h (htypes id _ hid base hbase)
      · rename_i base next hbase
        simp only [ih]

theorem reportShadowing_against (h : s.snapshot.Beside N b) {types : Array Linked}
    (htypes : ∀ (id : Nat) (x : Linked), types[id]? = some x →
      ∀ base, x.1.base = some base → base.module? ≠ some N)
    (declared : Declared Script.TypeDecl) (id : Nat) (t : ResolvedType) :
    (s.against b).reportShadowing types declared id t =
      s.reportShadowing types declared id t := by
  unfold reportShadowing
  rw [inherited_against h htypes]

/-- None of the types has a path into `N`. -/
def TypesBeside (s : Scope) (N : String) : Prop :=
  ∀ t ∈ s.decls.types, ∀ p ∈ t.decl.paths, ¬ s.contents.LeadsInto p N

theorem resolvedTypes_against (h : s.snapshot.Beside N b) (ht : s.TypesBeside N) :
    (s.against b).resolvedTypes = s.resolvedTypes :=
  List.map_congr_left fun t hmem => congrArg Pass.result (resolveType_against h (ht t hmem))

theorem markedTypes_against (h : s.snapshot.Beside N b) (ht : s.TypesBeside N) :
    (s.against b).markedTypes = s.markedTypes := by
  rw [markedTypes, resolvedTypes_against h ht]
  rfl

theorem markedTypes_ne (ht : s.TypesBeside N) {r : ResolvedType} (hr : r ∈ s.markedTypes)
    {base : TypeRef} (hbase : r.base = some base) : base.module? ≠ some N := by
  obtain ⟨id, hid⟩ := List.mem_iff_getElem?.1 hr
  obtain ⟨r', hr', hsame, -⟩ := unmarked_of_getElem? hid
  obtain ⟨t, hmem, rfl⟩ := List.mem_map.1 (List.mem_of_getElem? hr')
  exact resolveBase_ne (ht t hmem) (hsame.symm.trans hbase)

theorem shadowing_against (h : s.snapshot.Beside N b) (ht : s.TypesBeside N) :
    (s.against b).shadowing = s.shadowing := by
  have hlinked : ∀ (id : Nat) (x : Linked), (s.linked s.markedTypes)[id]? = some x →
      ∀ base, x.1.base = some base → base.module? ≠ some N := by
    intro id x hx base hbase
    rw [linked, List.getElem?_toArray] at hx
    obtain ⟨r, hr, rfl⟩ := List.mem_map.1 (List.mem_of_getElem? hx)
    exact markedTypes_ne ht hr hbase
  unfold shadowing
  rw [markedTypes_against h ht]
  exact List.flatMap_congr fun x _ => reportShadowing_against h hlinked x.1.1 x.2 x.1.2

theorem resolveTypes_against (h : s.snapshot.Beside N b) (ht : s.TypesBeside N) :
    (s.against b).resolveTypes = s.resolveTypes := by
  have htypes : ∀ t ∈ s.decls.types, (s.against b).resolveType t = s.resolveType t :=
    fun t hmem => resolveType_against h (ht t hmem)
  have hpasses {α : Type} (get : Pass ResolvedType → List α) :
      (s.against b).decls.types.flatMap (fun t => get ((s.against b).resolveType t)) =
        s.decls.types.flatMap fun t => get (s.resolveType t) :=
    List.flatMap_congr fun t hmem => congrArg get (htypes t hmem)
  rw [resolveTypes_eq, resolveTypes_eq, hpasses (·.diagnostics), hpasses (·.modules),
    markedTypes_against h ht, resolvedTypes_against h ht, reportBaseCycle_against,
    shadowing_against h ht]
  rfl

/-! ## Constants -/

theorem resolveExpr_against (h : s.snapshot.Beside N b) (unit : Nat) {e : Script.Expr}
    (he : ∀ p ∈ e.paths, ¬ s.contents.LeadsInto p N) :
    (s.against b).resolveExpr unit e = s.resolveExpr unit e := by
  induction e with
  | literal v span => rfl
  | path p => simp only [resolveExpr, constTarget_against h (he p List.mem_cons_self)]
  | negate e span ih => simp only [resolveExpr, ih he]
  | binary op l r span ihl ihr =>
    simp only [resolveExpr, ihl fun p hp => he p (List.mem_append_left _ hp),
      ihr fun p hp => he p (List.mem_append_right _ hp)]

/-- Evaluation follows the constants of other modules, which lead no further into `N`. -/
theorem eval_against (h : s.snapshot.Beside N b) (values : Nat → Option Value) (unit : Nat)
    {e : Script.Expr} {t : Term} (ht : s.Resolves e t)
    (he : ∀ p ∈ e.paths, ¬ s.contents.LeadsInto p N) :
    t.eval b values unit = t.eval s.snapshot values unit := by
  induction ht with
  | literal => rfl
  | own _ => rfl
  | @imported p m c htarget =>
    obtain ⟨hself, hqual, hc⟩ := constTarget_eq_imported.1 htarget
    have hm : m ≠ N := by
      rintro rfl
      exact he p List.mem_cons_self ⟨hself, hqual⟩
    simp only [Term.eval, h.constValue?_eq hm hc]
  | negate _ ih => simp only [Term.eval, ih he]
  | binary _ _ ihl ihr =>
    simp only [Term.eval, ihl fun p hp => he p (List.mem_append_left _ hp),
      ihr fun p hp => he p (List.mem_append_right _ hp)]

/-- None of the constants has a path into `N`. -/
def ConstsBeside (s : Scope) (N : String) : Prop :=
  ∀ c ∈ s.decls.constants, ∀ p ∈ c.decl.value.paths, ¬ s.contents.LeadsInto p N

theorem terms_against (h : s.snapshot.Beside N b) (hc : s.ConstsBeside N) :
    (s.against b).terms = s.terms :=
  List.map_congr_left fun c hmem => congrArg Pass.result (resolveExpr_against h c.unit (hc c hmem))

theorem evalConst_against (h : s.snapshot.Beside N b) (hc : s.ConstsBeside N) (cyclic : List Nat)
    (state : Array (Option Value) × List Diagnostic) (id : Nat) :
    (s.against b).evalConst s.terms.toArray cyclic state id =
      s.evalConst s.terms.toArray cyclic state id := by
  have hdecls : (s.against b).decls = s.decls := rfl
  unfold evalConst
  rw [hdecls]
  split
  · rename_i t c ht hid
    have hres : s.Resolves c.decl.value t := by
      rw [List.getElem?_toArray, terms, List.getElem?_map, hid] at ht
      exact resolves_of_resolveExpr ht
    have heval := eval_against h (fun i => state.1[i]?.join) c.unit hres
      (hc c (List.mem_of_getElem? hid))
    simp only [against, heval]
  · rfl

theorem resolveConsts_against (h : s.snapshot.Beside N b) (hc : s.ConstsBeside N) :
    (s.against b).resolveConsts = s.resolveConsts := by
  have hevaluated : (s.against b).evaluated = s.evaluated := by
    have hcyclic : (s.against b).cyclic = s.cyclic := by
      rw [cyclic, cyclic, terms_against h hc]
    have hstep : (s.against b).evalConst s.terms.toArray s.cyclic =
        s.evalConst s.terms.toArray s.cyclic := by
      funext state id
      exact evalConst_against h hc s.cyclic state id
    rw [evaluated, evaluated, evalConsts, hcyclic, terms_against h hc, hstep]
    rfl
  have hreport : (s.against b).reportConstCycle = s.reportConstCycle := rfl
  have hpasses {α : Type} (get : Pass (Option Term) → List α) :
      (s.against b).decls.constants.flatMap
          (fun c => get ((s.against b).resolveExpr c.unit c.decl.value)) =
        s.decls.constants.flatMap fun c => get (s.resolveExpr c.unit c.decl.value) :=
    List.flatMap_congr fun c hmem => congrArg get (resolveExpr_against h c.unit (hc c hmem))
  rw [resolveConsts_eq, resolveConsts_eq, hevaluated, terms_against h hc, hreport,
    hpasses (·.diagnostics), hpasses (·.modules)]

end Scope

/-! ## Compiling -/

namespace Program

variable {module N : String} {sources : List Source} {a b : Snapshot}

theorem mem_of_ofSources (module : String) (sources : List Source) (a : Snapshot) :
    (∀ t ∈ (ofSources module sources a).scope.decls.types,
      t.decl ∈ (Contents.ofSources module sources a).types) ∧
    ∀ c ∈ (ofSources module sources a).scope.decls.constants,
      c.decl ∈ (Contents.ofSources module sources a).consts := by
  have hitems : (declared (readUnits sources.zipIdx).1).map Prod.snd = Source.items sources := by
    rw [declared_readUnits, List.zipIdx_map_fst]
  obtain ⟨htypes, hconsts⟩ :=
    Declarations.mem_of_addAll (declared (readUnits sources.zipIdx).1) .empty
  refine ⟨fun t ht => List.mem_filterMap.2 ⟨.type t.decl, ?_, rfl⟩,
    fun c hc => List.mem_filterMap.2 ⟨.const c.decl, ?_, rfl⟩⟩
  · rw [← hitems]
    exact List.mem_map_of_mem (f := Prod.snd) ((htypes t ht).resolve_left nofun)
  · rw [← hitems]
    exact List.mem_map_of_mem (f := Prod.snd) ((hconsts c hc).resolve_left nofun)

/-- What is made of the sources is the same but for the snapshot that it was looked up in. -/
theorem ofSources_against (h : a.Beside N b)
    (hsources : ¬ (Contents.ofSources module sources a).Refers N) :
    ofSources module sources b =
      { ofSources module sources a with
        scope := (ofSources module sources a).scope.against b } := by
  obtain ⟨htypes, hconsts⟩ := mem_of_ofSources module sources a
  rw [Contents.refers_iff] at hsources
  have ht : (ofSources module sources a).scope.TypesBeside N :=
    fun t hmem p hp hN => hsources (.inl ⟨t.decl, htypes t hmem, p, hp, hN⟩)
  have hc : (ofSources module sources a).scope.ConstsBeside N :=
    fun c hmem p hp hN => hsources (.inr ⟨c.decl, hconsts c hmem, p, hp, hN⟩)
  have hresolved := Scope.resolveTypes_against (s := (ofSources module sources a).scope) h ht
  have hevaluated := Scope.resolveConsts_against (s := (ofSources module sources a).scope) h hc
  unfold ofSources at hresolved hevaluated ⊢
  dsimp only [Scope.against] at hresolved hevaluated ⊢
  rw [hresolved, hevaluated]

end Program

/--
If two snapshots differ at most in the module `N`, into which no other module leads, and no path of
the sources does either, they make no difference to a compile. The name of the module being
compiled does not lead into the snapshot, so `N` may be an earlier version of it.
-/
theorem compile_unrelated (options : Options) {module N : String} {sources : List Source}
    {a b : Snapshot} (hsame : ∀ m, m ≠ N → a.get? m = b.get? m)
    (hothers : ∀ m r, m ≠ N → a.get? m = some r → N ∉ r.interface.followed)
    (hsources : ¬ (Contents.ofSources module sources a).Refers N) :
    compile options module sources a = compile options module sources b := by
  unfold compile
  rw [Program.ofSources_against ⟨hsame, hothers⟩ hsources]
  rfl

/-! ### An earlier version and a bystander -/

def stock : Interface :=
  { name := "Stock"
    optimization := .debug
    references := []
    types := [.make "Stock" "Item" .empty none [⟨"id", .builtin .int⟩]]
    constants := [⟨"RATE", .int, .expr (.literal (.int 3))⟩] }

/-- What the sources do not say any more. -/
def formerShop : Interface :=
  { name := "Shop"
    optimization := .release
    references := []
    types := [.make "Shop" "Order" .sealed none [⟨"paid", .builtin .bool⟩]]
    constants := [⟨"FEE", .bool, .value (.bool true)⟩] }

def audit : Interface :=
  { name := "Audit"
    optimization := .release
    references := ["Shop", "Stock"]
    types := [.make "Audit" "Entry" .empty (some (.imported "Shop" "Order")) []]
    constants := [⟨"RATE", .int, .expr (.ref (some "Stock") "RATE")⟩] }

def shopSources : List Source :=
  [⟨"type Order extends Stock.Item \x7b id: int; next: Shop.Order; \x7d", none⟩,
    ⟨"const FEE = Stock.RATE * 2;", none⟩]

def stocked : Snapshot := ⟨[⟨stock, .memory⟩]⟩

theorem compile_unrelated_shop :
    let withFormer : Snapshot := ⟨[⟨formerShop, .memory⟩, ⟨stock, .memory⟩]⟩
    let withAudit : Snapshot := ⟨[⟨audit, .memory⟩, ⟨stock, .memory⟩]⟩
    stocked.Beside "Shop" withFormer ∧ stocked.Beside "Audit" withAudit ∧
      ¬ (Contents.ofSources "Shop" shopSources stocked).Refers "Shop" ∧
      ¬ (Contents.ofSources "Shop" shopSources stocked).Refers "Audit" ∧
      (compile .debug "Shop" shopSources stocked).output.isSome = true ∧
      compile .debug "Shop" shopSources stocked = compile .debug "Shop" shopSources withFormer ∧
      compile .debug "Shop" shopSources stocked = compile .debug "Shop" shopSources withAudit := by
  intro withFormer withAudit
  have hformer : stocked.Beside "Shop" withFormer :=
    Snapshot.beside_cons (a := stocked) (r := ⟨formerShop, .memory⟩) (by decide +kernel)
  have haudit : stocked.Beside "Audit" withAudit :=
    Snapshot.beside_cons (a := stocked) (r := ⟨audit, .memory⟩) (by decide +kernel)
  have hself : ¬ (Contents.ofSources "Shop" shopSources stocked).Refers "Shop" :=
    fun ⟨_, _, hne, _⟩ => hne rfl
  have hclear : ∀ p ∈ (Contents.ofSources "Shop" shopSources stocked).paths, ∀ q ∈ p.qualifier,
      q.name ≠ "Audit" := by
    decide +kernel
  have hother : ¬ (Contents.ofSources "Shop" shopSources stocked).Refers "Audit" :=
    fun ⟨p, hp, _, q, hq, hname⟩ => hclear p hp q hq hname
  exact ⟨hformer, haudit, hself, hother, by decide +kernel,
    compile_unrelated .debug hformer.get? hformer.unfollowed hself,
    compile_unrelated .debug haudit.get? haudit.unfollowed hother⟩

end Linkage
