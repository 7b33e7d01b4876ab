import Linkage.Proofs.Build.Faithful
import Mathlib.Data.List.Sort

/-!
# Linkage.Proofs.Build.References

The list of the other modules that a module uses. It is collected while paths are looked up, and
the members that refer to these modules are made elsewhere; here the two are compared.

* `Program.references_ascending`, `Program.references_unique` — the list ascends strictly, so its
  members say all about it.
* `Scope.modules_resolveType`, `Scope.modules_resolveExpr` — a look at a type or an initializer
  that finds nothing wrong takes the modules that the result names, one by one.
* `WellFormed.modules_eq` — so does the whole program, and `WellFormed.mem_references` says which
  modules these are: those that a path of the sources leads into, as in `Contents.Refers`.
-/

namespace Linkage

/-! ## Ascending lists -/

namespace Program

theorem mem_insertName {name n : String} {xs : List String} :
    n ∈ insertName name xs ↔ n = name ∨ n ∈ xs := by
  induction xs with
  | nil => simp [insertName]
  | cons x xs ih =>
    simp only [insertName]
    split
    · simp
    · split
      · rename_i heq
        subst heq
        simp
      · simp only [List.mem_cons, ih]
        exact or_left_comm

theorem mem_foldl_insertName {names : List String} {n : String} (xs : List String) :
    n ∈ names.foldl (fun xs name => insertName name xs) xs ↔ n ∈ names ∨ n ∈ xs := by
  induction names generalizing xs with
  | nil => simp
  | cons name names ih =>
    rw [List.foldl_cons, ih, mem_insertName, List.mem_cons]
    tauto

theorem ascending_insertName {xs : List String} (name : String) (h : xs.Pairwise (· < ·)) :
    (insertName name xs).Pairwise (· < ·) := by
  induction xs with
  | nil => exact List.pairwise_singleton _ _
  | cons x xs ih =>
    obtain ⟨hx, hxs⟩ := List.pairwise_cons.1 h
    simp only [insertName]
    split
    · rename_i hlt
      refine List.pairwise_cons.2 ⟨fun y hy => ?_, h⟩
      rcases List.mem_cons.1 hy with rfl | hy
      · exact hlt
      · exact String.lt_trans hlt (hx y hy)
    · split
      · exact h
      · rename_i hnot hne
        refine List.pairwise_cons.2 ⟨fun y hy => ?_, ih hxs⟩
        rcases mem_insertName.1 hy with rfl | hy
        · by_contra hle
          exact hne (String.le_antisymm (String.not_lt.1 hle) (String.not_lt.1 hnot))
        · exact hx y hy

theorem ascending_foldl (names : List String) {xs : List String} (h : xs.Pairwise (· < ·)) :
    (names.foldl (fun xs name => insertName name xs) xs).Pairwise (· < ·) := by
  induction names generalizing xs with
  | nil => exact h
  | cons name names ih => exact ih (ascending_insertName name h)

theorem mem_references {p : Program} {m : String} : m ∈ p.references ↔ m ∈ p.modules := by
  rw [references, mem_foldl_insertName]
  exact or_iff_left List.not_mem_nil

theorem references_ascending (p : Program) : p.references.Pairwise (· < ·) :=
  ascending_foldl _ .nil

/-- Lists that ascend strictly are the same if they have the same members. -/
theorem references_unique {p p' : Program} (h : ∀ n, n ∈ p.references ↔ n ∈ p'.references) :
    p.references = p'.references :=
  p.references_ascending.eq_of_mem_iff p'.references_ascending h

end Program

/-! ## Paths -/

/-- The paths of a type declaration: its base and the types of its fields. -/
def Script.TypeDecl.paths (t : Script.TypeDecl) : List Script.Path :=
  t.base.toList ++ t.fields.map (·.type)

namespace Contents

def paths (d : Contents) : List Script.Path :=
  d.types.flatMap (·.paths) ++ d.consts.flatMap (·.value.paths)

/-- The path has the name of this other module in front. -/
def LeadsInto (d : Contents) (p : Script.Path) (m : String) : Prop :=
  m ≠ d.module ∧ ∃ q, p.qualifier = some q ∧ q.name = m

/-- A path of the sources has the name of this other module in front. -/
def Refers (d : Contents) (m : String) : Prop := ∃ p ∈ d.paths, d.LeadsInto p m

theorem refers_iff {d : Contents} {m : String} :
    d.Refers m ↔ (∃ t ∈ d.types, ∃ p ∈ t.paths, d.LeadsInto p m) ∨
      ∃ c ∈ d.consts, ∃ p ∈ c.value.paths, d.LeadsInto p m := by
  simp only [Refers, paths, List.mem_append, List.mem_flatMap, or_and_right, exists_or]
  refine or_congr ⟨?_, ?_⟩ ⟨?_, ?_⟩
  · rintro ⟨p, ⟨t, ht, hp⟩, hm⟩
    exact ⟨t, ht, p, hp, hm⟩
  · rintro ⟨t, ht, p, hp, hm⟩
    exact ⟨p, ⟨t, ht, hp⟩, hm⟩
  · rintro ⟨p, ⟨c, hc, hp⟩, hm⟩
    exact ⟨c, hc, p, hp, hm⟩
  · rintro ⟨c, hc, p, hp, hm⟩
    exact ⟨p, ⟨c, hc, hp⟩, hm⟩

theorem NamesType.module?_iff {d : Contents} {p : Script.Path} {r : TypeRef}
    (h : d.NamesType p r) {m : String} : r.module? = some m ↔ d.LeadsInto p m := by
  cases h with
  | builtin _ => exact iff_of_false nofun fun ⟨_, _, hq, _⟩ => nomatch hq
  | own _ _ => exact iff_of_false nofun fun ⟨_, _, hq, _⟩ => nomatch hq
  | self hself _ _ =>
    refine iff_of_false nofun ?_
    rintro ⟨hne, q, ⟨⟩, rfl⟩
    exact hne hself
  | imported hne _ =>
    constructor
    · rintro ⟨⟩
      exact ⟨hne, _, rfl, rfl⟩
    · rintro ⟨-, q, ⟨⟩, rfl⟩
      rfl

end Contents

/-! ## What lookups take -/

/-- The other modules that the base and the fields name. -/
def ResolvedType.modules (t : ResolvedType) : List String :=
  (t.base.toList ++ t.fields.map (·.type)).filterMap TypeRef.module?

def ResolvedConst.modules (c : ResolvedConst) : List String := c.term.toList.flatMap Term.modules

/-- The other modules that bases, fields and initializers name. -/
def Program.named (p : Program) : List String :=
  p.types.flatMap (·.modules) ++ p.constants.flatMap (·.modules)

namespace Scope

variable {s : Scope}

theorem modules_resolveBase {unit : Nat} {t : Script.TypeDecl}
    (h : (s.resolveBase unit t).diagnostics = []) :
    (s.resolveBase unit t).modules =
      (s.resolveBase unit t).result.toList.filterMap TypeRef.module? := by
  cases hb : t.base with
  | none =>
    rw [resolveBase, hb]
    rfl
  | some path =>
    cases hr : (s.typeRef path).found with
    | error e => simp only [resolveBase, hb, hr, reduceCtorEq] at h
    | ok base =>
      cases hrefusal : s.baseRefusal? t.name.name path base with
      | some problem => simp only [resolveBase, hb, hr, hrefusal, reduceCtorEq] at h
      | none =>
        simp only [resolveBase, hb, hr, hrefusal, modules_typeRef hr]
        cases base <;> rfl

/-- By induction on the fields: without a report none of them is passed over. -/
theorem modules_resolveFields {unit : Nat} {type : String} (fs : List Script.FieldDecl) :
    ∀ seen : List String, (s.resolveFields unit type seen fs).diagnostics = [] →
      (s.resolveFields unit type seen fs).modules =
        ((s.resolveFields unit type seen fs).result.map (·.type)).filterMap TypeRef.module? := by
  induction fs with
  | nil => exact fun _ _ => rfl
  | cons f fs ih =>
    intro seen h
    cases hseen : seen.contains f.name.name with
    | true => simp only [resolveFields, hseen, if_true, reduceCtorEq] at h
    | false =>
      cases hr : (s.typeRef f.type).found with
      | error e =>
        simp only [resolveFields, hseen, Bool.false_eq_true, if_false, hr, reduceCtorEq] at h
      | ok r =>
        simp only [resolveFields, hseen, Bool.false_eq_true, if_false, hr] at h ⊢
        rw [modules_typeRef hr, ih _ h, List.map_cons, List.filterMap_cons]
        cases r.module? <;> rfl

theorem modules_resolveType {t : Declared Script.TypeDecl}
    (h : (s.resolveType t).diagnostics = []) :
    (s.resolveType t).modules = (s.resolveType t).result.modules := by
  obtain ⟨hbase, hfields⟩ := List.append_eq_nil_iff.1 h
  rw [ResolvedType.modules, List.filterMap_append]
  exact congrArg₂ (· ++ ·) (modules_resolveBase hbase) (modules_resolveFields _ _ hfields)

theorem modules_resolveExpr {e : Script.Expr} (h : s.PathsFound e) (unit : Nat) :
    (s.resolveExpr unit e).modules = (s.resolveExpr unit e).result.toList.flatMap Term.modules := by
  obtain ⟨t, ht⟩ := exists_resolves h
  rw [resolveExpr_of_resolves ht]
  exact (List.append_nil _).symm

theorem modules_resolveTypes (hs : s.contents.Sound) :
    s.resolveTypes.modules = s.resolveTypes.result.flatMap (·.modules) := by
  rw [resolveTypes_eq, markedTypes_of_sound hs, resolvedTypes, List.flatMap_map]
  refine List.flatMap_congr fun t ht => modules_resolveType ((resolveType_eq_nil hs.names).2 ?_)
  have hmem := List.mem_map_of_mem (f := (·.decl)) ht
  exact ⟨hs.bases t.decl hmem, hs.fields t.decl hmem⟩

theorem terms_resolveConsts (s : Scope) : s.resolveConsts.result.map (·.term) = s.terms := by
  have hlength : s.terms.length ≤ s.evaluated.1.toList.length := by
    rw [terms, List.length_map, ← s.settled_evaluated.size, Array.length_toList]
  rw [resolveConsts_eq, List.map_zipWith, ← List.map_uncurry_zip_eq_zipWith]
  exact List.map_fst_zip hlength

theorem modules_resolveConsts (h : s.AllFound) :
    s.resolveConsts.modules = s.resolveConsts.result.flatMap (·.modules) := by
  have hterms : s.resolveConsts.result.flatMap (·.modules) =
      s.terms.flatMap fun t => t.toList.flatMap Term.modules := by
    rw [← terms_resolveConsts, List.flatMap_map]
    rfl
  rw [hterms, resolveConsts_eq, terms, List.flatMap_map]
  exact List.flatMap_congr fun c hc => modules_resolveExpr (h c hc) c.unit

theorem mem_modules {e : Script.Expr} {t : Term} (h : s.Resolves e t) {m : String} :
    m ∈ t.modules ↔ ∃ p ∈ e.paths, s.contents.LeadsInto p m := by
  induction h with
  | literal => simp [Term.modules, Script.Expr.paths]
  | @own p id htarget =>
    simp only [Term.modules, Script.Expr.paths, List.mem_singleton, exists_eq_left,
      List.not_mem_nil, false_iff]
    rintro ⟨hne, q, hq, rfl⟩
    exact hne ((constTarget_eq_own.1 htarget).1 q hq)
  | @imported p m' c htarget =>
    obtain ⟨hne, ⟨q, hq, rfl⟩, -⟩ := constTarget_eq_imported.1 htarget
    simp only [Term.modules, Script.Expr.paths, List.mem_singleton, exists_eq_left]
    constructor
    · rintro rfl
      exact ⟨hne, q, hq, rfl⟩
    · rintro ⟨-, q', hq', rfl⟩
      rw [hq] at hq'
      rw [Option.some_inj.1 hq']
  | negate _ ih => exact ih
  | binary _ _ ihl ihr =>
    simp only [Term.modules, Script.Expr.paths, List.mem_append, ihl, ihr, or_and_right, exists_or]

end Scope

/-! ## What a well-formed module uses -/

namespace WellFormed

variable {module : String} {sources : List Source} {snapshot : Snapshot}

/-- What lookups took is what bases, fields and initializers name, one by one. -/
theorem modules_eq (h : WellFormed module sources snapshot) :
    (Program.ofSources module sources snapshot).modules =
      (Program.ofSources module sources snapshot).named := by
  have hconstants : (Program.ofSources module sources snapshot).constants =
      (Scope.ofSources module sources snapshot).resolveConsts.result := by
    rw [h.ofSources_eq, Scope.resolveConsts_eq]
  have htypes : (Program.ofSources module sources snapshot).types =
      (Scope.ofSources module sources snapshot).resolveTypes.result := by
    rw [h.types_eq, Scope.resolveTypes_eq, Scope.markedTypes_of_sound h.contents_sound]
  rw [Program.named, htypes, hconstants, ← Scope.modules_resolveTypes h.contents_sound,
    ← Scope.modules_resolveConsts h.allFound, h.ofSources_eq]

theorem mem_modulesOfBase {d : Contents} {base : Option Script.Path} {r : Option TypeRef}
    (h : Option.Rel d.LeadsTo base r) {m : String} :
    m ∈ r.toList.filterMap TypeRef.module? ↔ ∃ p ∈ base.toList, d.LeadsInto p m := by
  cases h with
  | none => simp
  | some hr => simp [← ((hr _).2 rfl).module?_iff]

theorem mem_modulesOfFields {d : Contents} {fs : List Script.FieldDecl} {gs : List ResolvedField}
    (h : List.Forall₂ (fun f g => d.NamesType f.type g.type) fs gs) {m : String} :
    m ∈ (gs.map (·.type)).filterMap TypeRef.module? ↔
      ∃ p ∈ fs.map (·.type), d.LeadsInto p m := by
  induction h with
  | nil => simp
  | @cons f g fs gs hfg _ ih =>
    rw [List.map_cons, List.map_cons, List.exists_mem_cons_iff, ← ih, ← hfg.module?_iff,
      List.filterMap_cons]
    cases g.type.module? with
    | none => simp
    | some n => simp [eq_comm]

theorem mem_modulesOfType (h : WellFormed module sources snapshot) {t : Declared Script.TypeDecl}
    (ht : t ∈ (Scope.ofSources module sources snapshot).decls.types) {m : String} :
    m ∈ ((Scope.ofSources module sources snapshot).resolveType t).result.modules ↔
      ∃ p ∈ t.decl.paths, (Scope.ofSources module sources snapshot).contents.LeadsInto p m := by
  have hs := h.contents_sound
  have hmem := List.mem_map_of_mem (f := (·.decl)) ht
  obtain ⟨hnodup, hfound⟩ := hs.fields t.decl hmem
  have hbase : Option.Rel (Scope.ofSources module sources snapshot).contents.LeadsTo t.decl.base
      ((Scope.ofSources module sources snapshot).resolveBase t.unit t.decl).1 :=
    Scope.rel_resolveBase hs.names (hs.bases t.decl hmem)
  have hfields : List.Forall₂
      (fun f g => g.decl = f ∧
        (Scope.ofSources module sources snapshot).contents.NamesType f.type g.type)
      t.decl.fields ((Scope.ofSources module sources snapshot).resolveFields t.unit
        t.decl.name.name [] t.decl.fields).1 :=
    Scope.forall₂_resolveFields hs.names t.decl.fields [] hnodup (fun _ hn => nomatch hn) hfound
  simp only [ResolvedType.modules, Script.TypeDecl.paths, List.filterMap_append, List.mem_append,
    or_and_right, exists_or]
  exact or_congr (mem_modulesOfBase hbase)
    (mem_modulesOfFields (hfields.imp fun _ _ hfg => hfg.2))

theorem exists_of_mem_resolved (h : WellFormed module sources snapshot) {r : ResolvedConst}
    (hr : r ∈ (Program.ofSources module sources snapshot).constants) :
    ∃ id c t v, ConstantAt module sources snapshot id c t v ∧ r = ⟨some t, some v⟩ := by
  obtain ⟨id, hid⟩ := List.mem_iff_getElem?.1 hr
  obtain ⟨c, hc⟩ :
      ∃ c, (Scope.ofSources module sources snapshot).decls.constants[id]? = some c := by
    have hterm := hid
    rw [h.ofSources_eq, List.getElem?_zipWith, Scope.terms, List.getElem?_map] at hterm
    cases hc : (Scope.ofSources module sources snapshot).decls.constants[id]? with
    | none => simp [hc] at hterm
    | some c => exact ⟨c, rfl⟩
  obtain ⟨t, v, hat⟩ := h.exists_constantAt hc
  exact ⟨id, c, t, v, hat, Option.some_inj.1 (hid.symm.trans (h.getElem?_resolved hat))⟩

theorem mem_modulesOfConsts (h : WellFormed module sources snapshot) {m : String} :
    m ∈ (Program.ofSources module sources snapshot).constants.flatMap (·.modules) ↔
      ∃ c ∈ (Scope.ofSources module sources snapshot).contents.consts, ∃ p ∈ c.value.paths,
        (Scope.ofSources module sources snapshot).contents.LeadsInto p m := by
  rw [List.mem_flatMap]
  constructor
  · rintro ⟨r, hr, hm⟩
    obtain ⟨id, c, t, v, hat, rfl⟩ := h.exists_of_mem_resolved hr
    simp only [ResolvedConst.modules, Option.toList_some, List.flatMap_singleton] at hm
    exact ⟨c.decl, Scope.mem_consts_iff.2 ⟨id, c, hat.declared, rfl⟩,
      (Scope.mem_modules hat.resolves).1 hm⟩
  · rintro ⟨c, hc, hm⟩
    obtain ⟨id, x, hx, rfl⟩ := Scope.mem_consts_iff.1 hc
    obtain ⟨t, v, hat⟩ := h.exists_constantAt hx
    refine ⟨_, List.mem_of_getElem? (h.getElem?_resolved hat), ?_⟩
    simp only [ResolvedConst.modules, Option.toList_some, List.flatMap_singleton]
    exact (Scope.mem_modules hat.resolves).2 hm

/-- The list holds the modules that the paths of the sources lead into. -/
theorem mem_references (h : WellFormed module sources snapshot) {m : String} :
    m ∈ (Program.ofSources module sources snapshot).references ↔
      (Contents.ofSources module sources snapshot).Refers m := by
  rw [Program.mem_references, h.modules_eq, Program.named, List.mem_append, h.mem_modulesOfConsts,
    h.types_eq, Scope.resolvedTypes, List.flatMap_map, List.mem_flatMap,
    ← Scope.contents_ofSources, Contents.refers_iff]
  refine or_congr ⟨?_, ?_⟩ .rfl
  · rintro ⟨t, ht, hm⟩
    exact ⟨t.decl, List.mem_map_of_mem ht, (h.mem_modulesOfType ht).1 hm⟩
  · rintro ⟨t, ht, hm⟩
    obtain ⟨x, hx, rfl⟩ := List.mem_map.1 ht
    exact ⟨x, hx, (h.mem_modulesOfType hx).2 hm⟩

end WellFormed

end Linkage
