import Linkage.Proofs.Build.Faithful
import Linkage.Proofs.Qualified

/-!
# Linkage.Proofs.Build.Inherited

What a type inherits: the walks along bases against the chain of types that they are to follow.

* `Contents.Chain` — the types along the bases, in this module and in others, as far as they go.
* `Chain.unique` — there is one chain at most.
* `importedFields_congr`, `exists_chain_importedFields` — the walk through other modules follows the
  chain whatever bounds it, as long as the bound covers the types that have not been visited. Bases
  in images may form cycles.
* `exists_chain_inherited` — and so does the whole walk, if bases in this module form no cycle.
-/

namespace Linkage

/-! ## Chains -/

/-- The reference as seen from outside the module `m` that stores it. -/
def TypeRef.storedIn (m : String) : TypeRef → TypeRef
  | .own n => .imported m n
  | r => r

theorem TypeRef.storedIn_ne_own (m : String) (r : TypeRef) (n : String) :
    r.storedIn m ≠ .own n := by
  cases r <;> exact fun h => nomatch h

namespace Contents

variable {d : Contents}

/-- The reference `r` leads to a type, and `base` is what this type extends, if anything. -/
inductive TypeAt (d : Contents) : TypeRef → Option TypeRef → Prop where
  | own {t : Script.TypeDecl} {base : Option TypeRef} :
      t ∈ d.types → Option.Rel d.LeadsTo t.base base → TypeAt d (.own t.name.name) base
  | imported {m x : String} {t : TypeDef} :
      d.snapshot.type? m x = some t → TypeAt d (.imported m x) (t.base.map (·.storedIn m))

/-- The types from a reference on along the bases, until one is not there or has been visited. -/
inductive Chain (d : Contents) : List TypeRef → Option TypeRef → List TypeRef → Prop where
  | done {visited : List TypeRef} : Chain d visited none []
  | visited {visited : List TypeRef} {r : TypeRef} : r ∈ visited → Chain d visited (some r) []
  | missing {visited : List TypeRef} {r : TypeRef} :
      (∀ base, ¬ d.TypeAt r base) → Chain d visited (some r) []
  | step {visited : List TypeRef} {r : TypeRef} {base : Option TypeRef} {rs : List TypeRef} :
      r ∉ visited → d.TypeAt r base → Chain d (r :: visited) base rs →
      Chain d visited (some r) (r :: rs)

/-- The types that `t` inherits from, the nearest one first. -/
def BaseChain (d : Contents) (t : Script.TypeDecl) (rs : List TypeRef) : Prop :=
  d.Chain [] (some (.own t.name.name)) (.own t.name.name :: rs)

/-- The names of the fields of a type. -/
def fieldsOf (d : Contents) : TypeRef → List String
  | .builtin _ => []
  | .own n =>
    match d.types.find? (·.name.name == n) with
    | none => []
    | some t => t.fields.map (·.name.name)
  | .imported m n =>
    match d.snapshot.type? m n with
    | none => []
    | some t => t.fields.map (·.name)

/-- The fields of all types of a chain, each with its type. -/
def fieldsAlong (d : Contents) (rs : List TypeRef) : List (String × String) :=
  rs.flatMap fun r => (d.fieldsOf r).map fun f => (f, r.text)

theorem fieldsAlong_cons (d : Contents) (r : TypeRef) (rs : List TypeRef) :
    d.fieldsAlong (r :: rs) = (d.fieldsOf r).map (fun f => (f, r.text)) ++ d.fieldsAlong rs :=
  List.flatMap_cons

theorem find?_beq_of_mem {f : String} {xs : List String} (h : f ∈ xs) :
    xs.find? (· == f) = some f := by
  have hsome : (xs.find? (· == f)).isSome = true :=
    List.find?_isSome.2 ⟨f, h, beq_self_eq_true f⟩
  obtain ⟨g, hg⟩ := Option.isSome_iff_exists.1 hsome
  have hgf : g = f := beq_iff_eq.1 (List.find?_some (p := (· == f)) hg)
  rw [hg, hgf]

/-- A field is found at the first type of the chain that has it. -/
theorem find?_fieldsAlong (d : Contents) (f : String) (rs : List TypeRef) :
    (d.fieldsAlong rs).find? (·.1 == f) =
      (rs.find? fun r => f ∈ d.fieldsOf r).map fun r => (f, r.text) := by
  induction rs with
  | nil => rfl
  | cons r rs ih =>
    rw [fieldsAlong_cons, List.find?_append, ih, List.find?_map]
    by_cases hf : f ∈ d.fieldsOf r
    · have hfind : (d.fieldsOf r).find? ((·.1 == f) ∘ fun g => (g, r.text)) = some f :=
        find?_beq_of_mem hf
      rw [hfind, List.find?_cons, decide_eq_true hf]
      rfl
    · have hfind : (d.fieldsOf r).find? ((·.1 == f) ∘ fun g => (g, r.text)) = none :=
        List.find?_eq_none.2 fun g hg heq => hf (beq_iff_eq.1 heq ▸ hg)
      rw [hfind, List.find?_cons, decide_eq_false hf]
      rfl

theorem fieldsOf_own (h : d.NamesSound) {t : Script.TypeDecl} (ht : t ∈ d.types) :
    d.fieldsOf (.own t.name.name) = t.fields.map (·.name.name) := by
  rw [fieldsOf, (find?_eq_some_of_nodup h.types).2 ⟨ht, rfl⟩]

theorem fieldsOf_imported {m x : String} {t : TypeDef} (ht : d.snapshot.type? m x = some t) :
    d.fieldsOf (.imported m x) = t.fields.map (·.name) := by
  rw [fieldsOf, ht]

theorem TypeAt.unique (h : d.NamesSound) {r : TypeRef} {base base' : Option TypeRef}
    (hr : d.TypeAt r base) (hr' : d.TypeAt r base') : base = base' := by
  cases hr with
  | @own t _ ht hbase =>
    generalize hown : TypeRef.own t.name.name = r at hr'
    cases hr' with
    | own ht' hbase' =>
      obtain rfl := List.inj_on_of_nodup_map h.types ht ht' (TypeRef.own.inj hown)
      exact LeadsTo.rel_unique hbase hbase'
    | imported _ => cases hown
  | imported ht =>
    cases hr' with
    | imported ht' => rw [Option.some_inj.1 (ht.symm.trans ht')]

/-- Types and bases are unique, so each step is the only possible one. -/
theorem Chain.unique (h : d.NamesSound) {visited : List TypeRef} {base : Option TypeRef}
    {rs : List TypeRef} (hc : d.Chain visited base rs) :
    ∀ {rs' : List TypeRef}, d.Chain visited base rs' → rs = rs' := by
  induction hc with
  | done =>
    intro rs' hc'
    cases hc'
    rfl
  | visited hr =>
    intro rs' hc'
    cases hc' with
    | visited _ => rfl
    | missing _ => rfl
    | step hnew => exact absurd hr hnew
  | missing hr =>
    intro rs' hc'
    cases hc' with
    | visited _ => rfl
    | missing _ => rfl
    | step _ hthere => exact absurd hthere (hr _)
  | step hnew hthere _ ih =>
    intro rs' hc'
    cases hc' with
    | visited hr => exact absurd hr hnew
    | missing hr => exact absurd hthere (hr _)
    | step _ hthere' hrest =>
      obtain rfl := hthere.unique h hthere'
      rw [ih hrest]

theorem BaseChain.unique (h : d.NamesSound) {t : Script.TypeDecl} {rs rs' : List TypeRef}
    (hc : d.BaseChain t rs) (hc' : d.BaseChain t rs') : rs = rs' :=
  (List.cons.inj (Chain.unique h hc hc')).2

end Contents

/-! ## Types that have not been visited -/

namespace Snapshot

/-- The types that there are to inherit from, as they are written. -/
def typeTexts (a : Snapshot) : List String :=
  a.references.flatMap fun r => r.interface.types.map fun t => (TypeRef.imported r.name t.name).text

/-- How many of them have not been visited. -/
def unvisited (a : Snapshot) (visited : List String) : Nat :=
  a.typeTexts.countP fun text => !visited.contains text

theorem text_mem_typeTexts {a : Snapshot} {m x : String} {t : TypeDef}
    (h : a.type? m x = some t) : (TypeRef.imported m x).text ∈ a.typeTexts := by
  unfold type? at h
  split at h
  · cases h
  · rename_i r hr
    refine List.mem_flatMap.2 ⟨r, mem_of_get? hr, ?_⟩
    rw [name_of_get? hr, ← Interface.name_of_type? h]
    exact List.mem_map_of_mem (Interface.mem_of_type? h)

theorem unvisited_cons_lt {a : Snapshot} {text : String} (htext : text ∈ a.typeTexts)
    {visited : List String} (hnew : text ∉ visited) :
    a.unvisited (text :: visited) < a.unvisited visited := by
  refine Graph.countP_lt (fun x _ hx => ?_) htext ?_ ?_
  · simp only [List.contains_cons, Bool.not_or, Bool.and_eq_true] at hx
    exact hx.2
  · simp
  · simpa using hnew

/-- There is a type at this reference that a walk has not been at. -/
def Ahead (a : Snapshot) (seen : List String) (r : TypeRef) : Prop :=
  ∃ m x t, r = .imported m x ∧ a.type? m x = some t ∧ r.text ∉ seen

/-- No name of a module has a point, so what a reference is written as tells its two names. -/
def Bare (a : Snapshot) : Prop := ∀ r ∈ a.references, '.' ∉ r.name.toList

theorem Bare.text_inj {a : Snapshot} (h : a.Bare) {m m' x x' : String} {t t' : TypeDef}
    (ht : a.type? m x = some t) (ht' : a.type? m' x' = some t')
    (htext : (TypeRef.imported m x).text = (TypeRef.imported m' x').text) :
    TypeRef.imported m x = .imported m' x' := by
  have hbare {m x : String} {t : TypeDef} (ht : a.type? m x = some t) : '.' ∉ m.toList := by
    unfold type? at ht
    split at ht
    · cases ht
    · rename_i r hr
      exact name_of_get? hr ▸ h r (mem_of_get? hr)
  obtain ⟨rfl, rfl⟩ := qualified_inj (hbare ht) (hbare ht') htext
  rfl

/-- The texts that a walk has seen stand for the types of other modules that were visited. -/
def Stand (a : Snapshot) (seen : List String) (visited : List TypeRef) : Prop :=
  ∀ m x t, a.type? m x = some t →
    ((TypeRef.imported m x).text ∈ seen ↔ .imported m x ∈ visited)

theorem Stand.cons {a : Snapshot} (ha : a.Bare) {seen : List String} {visited : List TypeRef}
    (h : a.Stand seen visited) {m x : String} {t : TypeDef} (ht : a.type? m x = some t) :
    a.Stand ((TypeRef.imported m x).text :: seen) (.imported m x :: visited) := by
  intro m' x' t' ht'
  rw [List.mem_cons, List.mem_cons, h m' x' t' ht']
  exact or_congr_left ⟨ha.text_inj ht' ht, congrArg TypeRef.text⟩

end Snapshot

namespace Scope

variable {s : Scope}

/-! ## The walk through other modules -/

/-- One step of the walk: the fields of a type that is there, and those that its base inherits. -/
theorem importedFields_succ (s : Scope) (n : Nat) (visited : List String) (m x : String) :
    s.importedFields (n + 1) visited (.imported m x) =
      if visited.contains (TypeRef.imported m x).text then []
      else
        match s.snapshot.type? m x with
        | none => []
        | some t =>
          t.fields.map (fun f => (f.name, (TypeRef.imported m x).text)) ++
            match t.base with
            | none => []
            | some (.own next) =>
              s.importedFields n ((TypeRef.imported m x).text :: visited) (.imported m next)
            | some next =>
              s.importedFields n ((TypeRef.imported m x).text :: visited) next := by
  rfl

/-- The walk ends if there is nothing ahead of it. -/
theorem importedFields_of_not_ahead {seen : List String} {r : TypeRef}
    (h : ¬ s.snapshot.Ahead seen r) (n : Nat) : s.importedFields n seen r = [] := by
  cases n with
  | zero => rfl
  | succ n =>
    cases r with
    | builtin k => simp [importedFields]
    | own y => simp [importedFields]
    | imported m x =>
      rw [importedFields_succ]
      split
      · rfl
      · rename_i hnew
        cases ht : s.snapshot.type? m x with
        | none => rfl
        | some t => exact absurd ⟨m, x, t, rfl, ht, mt List.contains_iff_mem.2 hnew⟩ h

/-- And else it takes a step. -/
theorem importedFields_step {seen : List String} {m x : String} {t : TypeDef}
    (ht : s.snapshot.type? m x = some t) (hnew : (TypeRef.imported m x).text ∉ seen) (n : Nat) :
    s.importedFields (n + 1) seen (.imported m x) =
      t.fields.map (fun f => (f.name, (TypeRef.imported m x).text)) ++
        (t.base.map (·.storedIn m)).elim []
          (s.importedFields n ((TypeRef.imported m x).text :: seen)) := by
  rw [importedFields_succ, if_neg (mt List.contains_iff_mem.1 hnew), ht]
  refine congrArg (_ ++ ·) ?_
  cases t.base with
  | none => rfl
  | some base => cases base <;> rfl

/-- Bounds that cover the types not visited yet give the same walk. -/
theorem importedFields_congr {seen : List String} (r : TypeRef) {n k : Nat}
    (hn : s.snapshot.unvisited seen ≤ n) (hk : s.snapshot.unvisited seen ≤ k) :
    s.importedFields n seen r = s.importedFields k seen r := by
  induction hu : s.snapshot.unvisited seen using Nat.strongRecOn generalizing seen r n k with
  | ind u ih =>
    subst hu
    by_cases hahead : s.snapshot.Ahead seen r
    · obtain ⟨m, x, t, rfl, ht, hnew⟩ := hahead
      have hlt := Snapshot.unvisited_cons_lt (Snapshot.text_mem_typeTexts ht) hnew
      obtain ⟨n, rfl⟩ := Nat.exists_eq_add_one_of_ne_zero (n := n) (by omega)
      obtain ⟨k, rfl⟩ := Nat.exists_eq_add_one_of_ne_zero (n := k) (by omega)
      rw [importedFields_step ht hnew, importedFields_step ht hnew]
      refine congrArg _ ?_
      cases t.base.map (·.storedIn m) with
      | none => rfl
      | some base => exact ih _ hlt base (by omega) (by omega) rfl
    · rw [importedFields_of_not_ahead hahead, importedFields_of_not_ahead hahead]

theorem unvisited_le_importedBound (s : Scope) (visited : List String) :
    s.snapshot.unvisited visited ≤ s.importedBound := by
  have hlength : s.snapshot.typeTexts.length =
      (s.snapshot.references.flatMap (·.interface.types)).length := by
    simp only [Snapshot.typeTexts, List.length_flatMap, List.length_map]
  have hle := List.countP_le_length (p := fun text => !visited.contains text)
    (l := s.snapshot.typeTexts)
  unfold importedBound
  rw [← hlength]
  exact Nat.le_succ_of_le hle

/-! ## Walks and chains -/

theorem chain_of_not_ahead {seen : List String} {visited : List TypeRef}
    (hseen : s.snapshot.Stand seen visited) {r : TypeRef} (hr : ∀ n, r ≠ .own n)
    (h : ¬ s.snapshot.Ahead seen r) : s.contents.Chain visited (some r) [] := by
  by_cases hvisited : r ∈ visited
  · exact .visited hvisited
  · refine .missing fun base hthere => ?_
    cases hthere with
    | own => exact hr _ rfl
    | @imported m x t ht => exact h ⟨m, x, t, rfl, ht, mt (hseen m x t ht).1 hvisited⟩

/-- The chain is found by induction on the number of types that have not been visited. -/
theorem exists_chain_importedFields (ha : s.snapshot.Bare) {seen : List String}
    {visited : List TypeRef} (hseen : s.snapshot.Stand seen visited) {base : Option TypeRef}
    (hbase : ∀ n, base ≠ some (.own n)) {n : Nat} (hn : s.snapshot.unvisited seen ≤ n) :
    ∃ rs, s.contents.Chain visited base rs ∧
      base.elim [] (s.importedFields n seen) = s.contents.fieldsAlong rs := by
  induction hu : s.snapshot.unvisited seen using Nat.strongRecOn
    generalizing seen visited base n with
  | ind u ih =>
    subst hu
    cases base with
    | none => exact ⟨[], .done, rfl⟩
    | some r =>
      by_cases hahead : s.snapshot.Ahead seen r
      · obtain ⟨m, x, t, rfl, ht, hnew⟩ := hahead
        have hlt := Snapshot.unvisited_cons_lt (Snapshot.text_mem_typeTexts ht) hnew
        obtain ⟨n, rfl⟩ := Nat.exists_eq_add_one_of_ne_zero (n := n) (by omega)
        have hnext : ∀ y, t.base.map (·.storedIn m) ≠ some (.own y) := by
          intro y hy
          obtain ⟨b, -, hb⟩ := Option.map_eq_some_iff.1 hy
          exact b.storedIn_ne_own m y hb
        obtain ⟨rs, hchain, hfields⟩ := ih _ hlt (hseen.cons ha ht) hnext
          (n := n) (by omega) rfl
        refine ⟨.imported m x :: rs, .step (mt (hseen m x t ht).2 hnew) (.imported ht) hchain, ?_⟩
        rw [Option.elim_some, importedFields_step ht hnew, hfields, Contents.fieldsAlong_cons,
          Contents.fieldsOf_imported ht, List.map_map]
        rfl
      · have hr : ∀ y, r ≠ .own y := fun y hy => hbase y (congrArg some hy)
        exact ⟨[], chain_of_not_ahead hseen hr hahead, importedFields_of_not_ahead hahead n⟩

/-! ## The whole walk -/

/-- All types, each with the place of its base if that is a type of the module. -/
def links (s : Scope) : Array Linked := s.linked s.resolvedTypes

theorem getElem?_links {id : Nat} {t : Declared Script.TypeDecl}
    (ht : s.decls.types[id]? = some t) :
    s.links[id]? = some ((s.resolveType t).1, s.baseId? (s.resolveType t).1) := by
  simp [links, linked, resolvedTypes, ht]

theorem typeAt_own (hs : s.contents.Sound) {id : Nat} {t : Declared Script.TypeDecl}
    (ht : s.decls.types[id]? = some t) :
    s.contents.TypeAt (.own t.decl.name.name) (s.resolveType t).1.base := by
  have hmem := mem_types_iff.2 ⟨id, t, ht, rfl⟩
  exact .own hmem (rel_resolveBase hs.names (hs.bases t.decl hmem))

theorem fields_resolveType (hs : s.contents.Sound) {id : Nat} {t : Declared Script.TypeDecl}
    (ht : s.decls.types[id]? = some t) :
    (s.resolveType t).1.fields.map (·.decl) = t.decl.fields := by
  have hmem := mem_types_iff.2 ⟨id, t, ht, rfl⟩
  obtain ⟨hnodup, hfound⟩ := hs.fields t.decl hmem
  have hfields : List.Forall₂ (fun f g => g.decl = f ∧ s.contents.NamesType f.type g.type)
      t.decl.fields (s.resolveType t).1.fields :=
    forall₂_resolveFields hs.names t.decl.fields [] hnodup (fun _ hn => nomatch hn) hfound
  have hsame := List.forall₂_map_right_iff.2 (hfields.imp fun _ _ h => h.1.symm)
  exact (List.forall₂_eq_eq_eq ▸ hsame).symm

/-- A base without a place among the types is in another module. -/
theorem base_ne_own (hs : s.contents.Sound) {id : Nat} {t : Declared Script.TypeDecl}
    (ht : s.decls.types[id]? = some t) (hid : s.baseId? (s.resolveType t).1 = none) (n : String) :
    (s.resolveType t).1.base ≠ some (.own n) := by
  intro hbase
  have hmem := mem_types_iff.2 ⟨id, t, ht, rfl⟩
  obtain ⟨p, -, hnames⟩ := (resolveBase_eq_some hs.names (hs.bases t.decl hmem)).1 hbase
  obtain ⟨u, hu, hn⟩ := hnames.declared
  obtain ⟨next, hnext⟩ := typeId?_of_mem hs.names hu hn
  have hsome : s.baseId? (s.resolveType t).1 = some next := by
    rw [baseId?, hbase]
    exact hnext
  rw [hid] at hsome
  cases hsome

theorem baseId?_eq_some (hs : s.contents.Sound) {r : ResolvedType} {next : Nat}
    (hid : s.baseId? r = some next) :
    ∃ u, s.decls.types[next]? = some u ∧ r.base = some (.own u.decl.name.name) := by
  unfold baseId? at hid
  split at hid
  · rename_i n hbase
    obtain ⟨u, hu, rfl⟩ := (typeId?_eq_some hs.names).1 hid
    exact ⟨u, hu, hbase⟩
  · cases hid

theorem inherited_leave {id : Nat} {t : Declared Script.TypeDecl}
    (ht : s.decls.types[id]? = some t) (hid : s.baseId? (s.resolveType t).1 = none) (n : Nat) :
    s.inherited s.links (n + 1) id =
      (s.resolveType t).1.base.elim [] (s.importedFields s.importedBound []) := by
  rw [inherited, getElem?_links ht]
  dsimp only
  rw [hid]
  cases (s.resolveType t).1.base <;> rfl

theorem inherited_step (hs : s.contents.Sound) {id next : Nat} {t u : Declared Script.TypeDecl}
    (ht : s.decls.types[id]? = some t) (hid : s.baseId? (s.resolveType t).1 = some next)
    (hu : s.decls.types[next]? = some u)
    (hbase : (s.resolveType t).1.base = some (.own u.decl.name.name)) (n : Nat) :
    s.inherited s.links (n + 1) id =
      u.decl.fields.map (fun f => (f.name.name, u.decl.name.name)) ++
        s.inherited s.links n next := by
  rw [inherited, getElem?_links ht]
  dsimp only
  rw [hid, hbase, ← fields_resolveType hs hu, List.map_map]
  simp only [getElem?_links hu]
  rfl

/-- Types of the module whose bases lead to the type at `id`. -/
def Behind (s : Scope) (visited : List TypeRef) (id : Nat) : Prop :=
  ∀ r ∈ visited, ∃ j, r = .own (s.typeName j) ∧ (s.baseGraph s.resolvedTypes).Reaches j id

/-- Bases form no cycle, so they do not lead back to what has been visited. -/
theorem Behind.not_mem (hs : s.contents.Sound) {visited : List TypeRef} {id : Nat}
    (h : s.Behind visited id) {t : Declared Script.TypeDecl} (ht : s.decls.types[id]? = some t) :
    .own t.decl.name.name ∉ visited := by
  have hrep := represents_baseGraph hs.names hs.bases
  intro hmem
  obtain ⟨j, hj, hreaches⟩ := h _ hmem
  rw [TypeRef.own.injEq, ← typeName_eq ht] at hj
  obtain rfl := hrep.injective id (hreaches.target_lt hrep.inRange) j
    (hreaches.source_lt hrep.inRange) hj
  exact hrep.acyclic_iff.2 hs.noBaseCycle _ hreaches

theorem Behind.cons {visited : List TypeRef} {id next : Nat} (h : s.Behind visited id)
    {t : Declared Script.TypeDecl} (ht : s.decls.types[id]? = some t)
    (he : (s.baseGraph s.resolvedTypes).Edge id next) :
    s.Behind (.own t.decl.name.name :: visited) next := by
  refine List.forall_mem_cons.2 ⟨⟨id, by rw [typeName_eq ht], .single he⟩, fun r hr => ?_⟩
  obtain ⟨j, hj, hreaches⟩ := h r hr
  exact ⟨j, hj, hreaches.tail he⟩

theorem Behind.stand {visited : List TypeRef} {id : Nat} (h : s.Behind visited id) (n : String) :
    s.snapshot.Stand [] (.own n :: visited) := by
  refine fun m x _ _ => iff_of_false List.not_mem_nil fun hmem => ?_
  rcases List.mem_cons.1 hmem with hown | hmem
  · cases hown
  · obtain ⟨j, hj, -⟩ := h _ hmem
    cases hj

/-- The chain is found by induction along the bases, which form no cycle in the module. -/
theorem exists_chain_inherited (hs : s.contents.Sound) (ha : s.snapshot.Bare) {id : Nat}
    {t : Declared Script.TypeDecl} (ht : s.decls.types[id]? = some t) {visited : List TypeRef}
    (hvisited : s.Behind visited id) :
    ∃ rs, s.contents.Chain visited (some (.own t.decl.name.name)) (.own t.decl.name.name :: rs) ∧
      ∀ n, (s.baseGraph s.resolvedTypes).weight id ≤ n →
        s.inherited s.links n id = s.contents.fieldsAlong rs := by
  have hrep := represents_baseGraph hs.names hs.bases
  have hacyclic := hrep.acyclic_iff.2 hs.noBaseCycle
  induction id using Graph.induction_of_acyclic hrep.inRange hacyclic generalizing t visited with
  | step id ih =>
    have hlt : id < (s.baseGraph s.resolvedTypes).size := by
      have := (List.getElem?_eq_some_iff.1 ht).1
      simpa [baseGraph, resolvedTypes] using this
    have hpos := Graph.weight_pos hlt
    have hnew := hvisited.not_mem hs ht
    have hthere := typeAt_own hs ht
    cases hid : s.baseId? (s.resolveType t).1 with
    | none =>
      obtain ⟨rs, hchain, hfields⟩ := exists_chain_importedFields ha (hvisited.stand _)
        (base_ne_own hs ht hid) (s.unvisited_le_importedBound [])
      refine ⟨rs, .step hnew hthere hchain, fun n hn => ?_⟩
      obtain ⟨n, rfl⟩ := Nat.exists_eq_add_one_of_ne_zero (n := n) (by omega)
      rw [inherited_leave ht hid, hfields]
    | some next =>
      obtain ⟨u, hu, hbase⟩ := baseId?_eq_some hs hid
      have he : (s.baseGraph s.resolvedTypes).Edge id next :=
        edge_baseGraph.2 ⟨_, by simp [resolvedTypes, ht], hid⟩
      obtain ⟨rs, hchain, hfields⟩ := ih next he hu (hvisited.cons ht he)
      have hweight := Graph.weight_lt hrep.inRange (.single he) fun hback =>
        hacyclic id (hback.head he)
      refine ⟨.own u.decl.name.name :: rs, .step hnew (hbase ▸ hthere) hchain, fun n hn => ?_⟩
      obtain ⟨n, rfl⟩ := Nat.exists_eq_add_one_of_ne_zero (n := n) (by omega)
      have hmem := mem_types_iff.2 ⟨next, u, hu, rfl⟩
      rw [inherited_step hs ht hid hu hbase, hfields n (by omega), Contents.fieldsAlong_cons,
        Contents.fieldsOf_own hs.names hmem, List.map_map]
      rfl

end Scope
end Linkage
