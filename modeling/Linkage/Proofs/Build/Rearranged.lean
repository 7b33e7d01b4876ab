import Linkage.Proofs.Build.References
import Linkage.Proofs.Script.Recovery
import Mathlib.Data.List.Permutation

/-!
# Linkage.Proofs.Build.Rearranged

`compile_rearranged`: the order of declarations and the units they stand in make no difference.

What is found by name does not depend on the order in which it is declared, and what is sound and
what is emitted is said by names only.

* `Contents.Rearranged` — the same declarations up to spans in another order.
* `Rearranged.sound` — they are sound as well.
* `Rearranged.emitsType`, `Rearranged.emitsConst` — and the same is emitted for each.
* `Interface.Rearranged` — interfaces with the same references, and the same under every name.
-/

namespace Linkage

/-! ## Lists -/

section Lists

variable {α β : Type} {f : α → β} {xs ys : List α}

theorem exists_of_map_perm (h : (xs.map f).Perm (ys.map f)) {x : α} (hx : x ∈ xs) :
    ∃ y ∈ ys, f y = f x :=
  List.mem_map.1 (h.mem_iff.1 (List.mem_map_of_mem hx))

theorem exists_of_map_eq (h : xs.map f = ys.map f) {x : α} (hx : x ∈ xs) :
    ∃ y ∈ ys, f y = f x :=
  exists_of_map_perm (.of_eq h) hx

theorem exists_of_forall₂ {R : α → β → Prop} {zs : List β} (h : List.Forall₂ R xs zs) {x : α}
    (hx : x ∈ xs) : ∃ z ∈ zs, R x z := by
  induction h with
  | nil => cases hx
  | cons hxz _ ih =>
    rcases List.mem_cons.1 hx with rfl | hx
    · exact ⟨_, List.mem_cons_self, hxz⟩
    · obtain ⟨z, hz, hR⟩ := ih hx
      exact ⟨z, List.mem_cons_of_mem _ hz, hR⟩

/-- What is related to one of two lists is related to the other if they only differ up to `f`. -/
theorem forall₂_of_map_eq {γ : Type} {R S : α → γ → Prop} {zs : List γ}
    (h : List.Forall₂ R xs zs) (hRS : ∀ x y z, f y = f x → R x z → S y z) :
    ∀ {ys : List α}, ys.map f = xs.map f → List.Forall₂ S ys zs := by
  induction h with
  | nil =>
    intro ys hys
    rw [List.map_eq_nil_iff.1 hys]
    exact .nil
  | cons hxz _ ih =>
    intro ys hys
    obtain ⟨y, ys, rfl, hy, hys⟩ := List.map_eq_cons_iff.1 hys
    exact .cons (hRS _ _ _ hy hxz) (ih hys)

/-- What is made of the members of a list, one by one, is as much rearranged as the list. -/
theorem perm_of_forall₂ {γ : Type} {R : α → γ → Prop} {zs ws : List γ}
    (hxs : List.Forall₂ R xs zs) (hys : List.Forall₂ R ys ws)
    (hunique : ∀ x y z w, f x = f y → R x z → R y w → z = w)
    (h : (xs.map f).Perm (ys.map f)) : zs.Perm ws := by
  have hself {xs : List α} {zs : List γ} (hxs : List.Forall₂ R xs zs) :
      List.Forall₂ (fun b z => ∃ x, f x = b ∧ R x z) (xs.map f) zs :=
    List.forall₂_map_left_iff.2 (hxs.imp fun x _ hxz => ⟨x, rfl, hxz⟩)
  refine List.rel_perm_imp ?_ (hself hxs) (hself hys) h
  rintro _ z w ⟨x, rfl, hxz⟩ ⟨y, hxy, hyw⟩
  exact hunique x y z w hxy.symm hxz hyw

theorem find?_eq_of_perm {f : α → String} (h : xs.Perm ys) (hys : (ys.map f).Nodup)
    (n : String) : xs.find? (f · == n) = ys.find? (f · == n) := by
  refine Option.ext fun x => ?_
  rw [find?_eq_some_of_nodup hys, find?_eq_some_of_nodup ((h.map f).nodup_iff.2 hys), h.mem_iff]

end Lists

/-! ## Up to spans -/

namespace Script

theorem Path.of_unplaced_eq {p p' : Path} (h : p'.unplaced = p.unplaced) :
    p'.name.name = p.name.name ∧
      p'.qualifier.map Ident.unplaced = p.qualifier.map Ident.unplaced :=
  ⟨congrArg (·.name.name) h, congrArg Path.qualifier h⟩

theorem Path.qualifier_of_unplaced_eq {p p' : Path} (h : p'.unplaced = p.unplaced) {q : Ident}
    (hq : p.qualifier = some q) : ∃ q', p'.qualifier = some q' ∧ q'.name = q.name := by
  have hmap := (of_unplaced_eq h).2
  rw [hq, Option.map_some, Option.map_eq_some_iff] at hmap
  obtain ⟨q', hq', hsame⟩ := hmap
  exact ⟨q', hq', congrArg (·.name) hsame⟩

theorem Expr.paths_unplaced (e : Expr) : e.unplaced.paths = e.paths.map Path.unplaced := by
  induction e with
  | literal => rfl
  | path => rfl
  | negate _ _ ih => exact ih
  | binary _ _ _ _ ihl ihr => rw [unplaced, paths, paths, ihl, ihr, List.map_append]

section

variable {e e' l r : Expr} {span : Span}

theorem Expr.eq_literal {v : Value} (h : e'.unplaced = (literal v span).unplaced) :
    ∃ span', e' = .literal v span' := by
  cases e' with
  | literal v' span' => exact ⟨span', by rw [(literal.inj h).1]⟩
  | _ => cases h

theorem Expr.eq_path {p : Path} (h : e'.unplaced = (path p).unplaced) :
    ∃ p', e' = .path p' ∧ p'.unplaced = p.unplaced := by
  cases e' with
  | path p' => exact ⟨p', rfl, path.inj h⟩
  | _ => cases h

theorem Expr.eq_negate (h : e'.unplaced = (negate e span).unplaced) :
    ∃ e₁ span', e' = .negate e₁ span' ∧ e₁.unplaced = e.unplaced := by
  cases e' with
  | negate e₁ span' => exact ⟨e₁, span', rfl, (negate.inj h).1⟩
  | _ => cases h

theorem Expr.eq_binary {op : Operator} (h : e'.unplaced = (binary op l r span).unplaced) :
    ∃ l' r' span', e' = .binary op l' r' span' ∧ l'.unplaced = l.unplaced ∧
      r'.unplaced = r.unplaced := by
  cases e' with
  | binary op' l' r' span' =>
    obtain ⟨rfl, hl, hr, -⟩ := binary.inj h
    exact ⟨l', r', span', rfl, hl, hr⟩
  | _ => cases h

end

/-- The paths stand in the same places. -/
theorem ConstDecl.exists_path {c c' : ConstDecl} (h : c'.unplaced = c.unplaced) {p : Path}
    (hp : p ∈ c.value.paths) : ∃ p' ∈ c'.value.paths, p'.unplaced = p.unplaced := by
  have hvalue : c'.value.unplaced = c.value.unplaced := congrArg (·.value) h
  refine exists_of_map_eq ?_ hp
  rw [← Expr.paths_unplaced, ← Expr.paths_unplaced, hvalue]

theorem TypeDecl.base_of_unplaced_eq {t t' : TypeDecl} (h : t'.unplaced = t.unplaced) :
    t'.base.map Path.unplaced = t.base.map Path.unplaced :=
  congrArg TypeDecl.base h

theorem TypeDecl.fields_of_unplaced_eq {t t' : TypeDecl} (h : t'.unplaced = t.unplaced) :
    t'.fields.map FieldDecl.unplaced = t.fields.map FieldDecl.unplaced :=
  congrArg TypeDecl.fields h

theorem TypeDecl.exists_base {t t' : TypeDecl} (h : t'.unplaced = t.unplaced) {p : Path}
    (hp : t.base = some p) : ∃ p', t'.base = some p' ∧ p'.unplaced = p.unplaced := by
  have hmap := base_of_unplaced_eq h
  rwa [hp, Option.map_some, Option.map_eq_some_iff] at hmap

theorem TypeDecl.exists_path {t t' : TypeDecl} (h : t'.unplaced = t.unplaced) {p : Path}
    (hp : p ∈ t.paths) : ∃ p' ∈ t'.paths, p'.unplaced = p.unplaced := by
  have hfields := congrArg (List.map FieldDecl.type) (fields_of_unplaced_eq h)
  simp only [List.map_map] at hfields
  refine exists_of_map_eq ?_ hp
  simp only [paths, List.map_append, ← Option.toList_map, base_of_unplaced_eq h, List.map_map]
  exact congrArg _ hfields.symm

end Script

/-! ## Rearranging -/

namespace Contents

/-- The same declarations up to spans, in another order. -/
structure Rearranged (d d' : Contents) : Prop where
  module : d'.module = d.module
  snapshot : d'.snapshot = d.snapshot
  types : (d'.types.map Script.TypeDecl.unplaced).Perm (d.types.map Script.TypeDecl.unplaced)
  consts : (d'.consts.map Script.ConstDecl.unplaced).Perm (d.consts.map Script.ConstDecl.unplaced)

namespace Rearranged

variable {d d' : Contents}

theorem refl (d : Contents) : d.Rearranged d := ⟨rfl, rfl, .rfl, .rfl⟩

theorem symm (h : d.Rearranged d') : d'.Rearranged d :=
  ⟨h.module.symm, h.snapshot.symm, h.types.symm, h.consts.symm⟩

theorem exists_type (h : d.Rearranged d') {t : Script.TypeDecl} (ht : t ∈ d.types) :
    ∃ t' ∈ d'.types, t'.unplaced = t.unplaced :=
  exists_of_map_perm h.types.symm ht

theorem exists_const (h : d.Rearranged d') {c : Script.ConstDecl} (hc : c ∈ d.consts) :
    ∃ c' ∈ d'.consts, c'.unplaced = c.unplaced :=
  exists_of_map_perm h.consts.symm hc

/-! ### Paths -/

theorem namesType (h : d.Rearranged d') {p p' : Script.Path} (hp : p'.unplaced = p.unplaced)
    {r : TypeRef} (hr : d.NamesType p r) : d'.NamesType p' r := by
  obtain ⟨qualifier, n'⟩ := p'
  cases hr with
  | @builtin n k hk =>
    obtain ⟨hname, hqualifier⟩ := Script.Path.of_unplaced_eq hp
    obtain rfl : qualifier = none := Option.map_eq_none_iff.1 hqualifier
    exact .builtin ((congrArg Kind.ofName? hname).trans hk)
  | @own n t ht hn =>
    obtain ⟨hname, hqualifier⟩ := Script.Path.of_unplaced_eq hp
    obtain rfl : qualifier = none := Option.map_eq_none_iff.1 hqualifier
    obtain ⟨t', ht', hsame⟩ := h.exists_type ht
    have hname : n'.name = n.name := hname
    rw [← hname]
    exact .own ht' ((congrArg (·.name.name) hsame).trans (hn.trans hname.symm))
  | @self q n t hself ht hn =>
    have hname : n'.name = n.name := (Script.Path.of_unplaced_eq hp).1
    obtain ⟨q', hq', hsame⟩ := Script.Path.qualifier_of_unplaced_eq hp rfl
    obtain rfl : qualifier = some q' := hq'
    obtain ⟨t', ht', ht⟩ := h.exists_type ht
    rw [← hname]
    exact .self (hsame.trans (hself.trans h.module.symm)) ht'
      ((congrArg (·.name.name) ht).trans (hn.trans hname.symm))
  | @imported q n t hne ht =>
    have hname : n'.name = n.name := (Script.Path.of_unplaced_eq hp).1
    obtain ⟨q', hq', hsame⟩ := Script.Path.qualifier_of_unplaced_eq hp rfl
    obtain rfl : qualifier = some q' := hq'
    rw [← hname, ← hsame]
    refine .imported ?_ (t := t) ?_
    · rwa [hsame, h.module]
    · rwa [hsame, hname, h.snapshot]

theorem namesType_iff (h : d.Rearranged d') {p p' : Script.Path} (hp : p'.unplaced = p.unplaced)
    {r : TypeRef} : d'.NamesType p' r ↔ d.NamesType p r :=
  ⟨h.symm.namesType hp.symm, h.namesType hp⟩

theorem local_ (h : d.Rearranged d') {p p' : Script.Path} (hp : p'.unplaced = p.unplaced)
    (hl : d.Local p) : d'.Local p' := by
  intro q' hq'
  obtain ⟨q, hq, hsame⟩ := Script.Path.qualifier_of_unplaced_eq hp.symm hq'
  rw [h.module, ← hl q hq, hsame]

theorem namesOwn (h : d.Rearranged d') {p p' : Script.Path} (hp : p'.unplaced = p.unplaced)
    {c : Script.ConstDecl} (hc : d.NamesOwn p c) :
    ∃ c', c'.unplaced = c.unplaced ∧ d'.NamesOwn p' c' := by
  obtain ⟨c', hc', hsame⟩ := h.exists_const hc.declared
  refine ⟨c', hsame, h.local_ hp hc.isLocal, hc', ?_⟩
  rw [(Script.Path.of_unplaced_eq hp).1, ← hc.name]
  exact congrArg (·.name.name) hsame

theorem namesImported (h : d.Rearranged d') {p p' : Script.Path} (hp : p'.unplaced = p.unplaced)
    {m : String} {c : ConstDef} (hc : d.NamesImported p m c) : d'.NamesImported p' m c := by
  obtain ⟨hne, ⟨q, hq, rfl⟩, hexported⟩ := hc
  obtain ⟨q', hq', hsame⟩ := Script.Path.qualifier_of_unplaced_eq hp hq
  refine ⟨?_, ⟨q', hq', hsame⟩, ?_⟩
  · rwa [h.module]
  · rwa [h.snapshot, (Script.Path.of_unplaced_eq hp).1]

/-! ### Soundness -/

theorem extends_ (h : d.Rearranged d') {n b : String} (he : d.Extends n b) : d'.Extends n b := by
  obtain ⟨t, ht, rfl, p, hp, hnames⟩ := he
  obtain ⟨t', ht', hsame⟩ := h.exists_type ht
  obtain ⟨p', hp', hpsame⟩ := Script.TypeDecl.exists_base hsame hp
  exact ⟨t', ht', congrArg (·.name.name) hsame, p', hp', h.namesType hpsame hnames⟩

theorem dependsOn (h : d.Rearranged d') {n m : String} (hd : d.DependsOn n m) :
    d'.DependsOn n m := by
  obtain ⟨c, hc, rfl, p, hp, k, hk, rfl⟩ := hd
  obtain ⟨c', hc', hsame⟩ := h.exists_const hc
  obtain ⟨p', hp', hpsame⟩ := Script.ConstDecl.exists_path hsame hp
  obtain ⟨k', hksame, hk'⟩ := h.namesOwn hpsame hk
  exact ⟨c', hc', congrArg (·.name.name) hsame, p', hp', k', hk', congrArg (·.name.name) hksame⟩

theorem extensible (h : d.Rearranged d') {r : TypeRef} (hr : d.Extensible r) : d'.Extensible r := by
  cases r with
  | builtin k => exact hr
  | own n =>
    intro t' ht' hn
    obtain ⟨t, ht, hsame⟩ := h.symm.exists_type ht'
    have hsealed := hr t ht ((congrArg (·.name.name) hsame).trans hn)
    exact (congrArg (·.modifiers.isSealed) hsame).symm.trans hsealed
  | imported m n =>
    intro t ht
    rw [h.snapshot] at ht
    exact hr t ht

theorem baseSound (h : d.Rearranged d') {t t' : Script.TypeDecl} (hsame : t'.unplaced = t.unplaced)
    (hs : d.BaseSound t) : d'.BaseSound t' := by
  intro p' hp'
  obtain ⟨p, hp, hpsame⟩ := Script.TypeDecl.exists_base hsame.symm hp'
  obtain ⟨r, hr, hextensible⟩ := hs p hp
  exact ⟨r, h.namesType hpsame.symm hr, h.extensible hextensible⟩

theorem fieldsSound (h : d.Rearranged d') {t t' : Script.TypeDecl}
    (hsame : t'.unplaced = t.unplaced) (hs : d.FieldsSound t) : d'.FieldsSound t' := by
  have hfields := Script.TypeDecl.fields_of_unplaced_eq hsame
  refine ⟨?_, fun f' hf' => ?_⟩
  · have hnames := congrArg (List.map fun f : Script.FieldDecl => f.name.name) hfields
    rw [List.map_map, List.map_map] at hnames
    exact hnames ▸ hs.1
  · obtain ⟨f, hf, hfsame⟩ := exists_of_map_eq hfields hf'
    obtain ⟨r, hr⟩ := hs.2 f hf
    exact ⟨r, h.namesType (congrArg Script.FieldDecl.type hfsame).symm hr⟩

theorem namesSound (h : d.Rearranged d') (hs : d.NamesSound) : d'.NamesSound where
  types := by
    have hnames := h.types.map fun t : Script.TypeDecl => t.name.name
    rw [List.map_map, List.map_map] at hnames
    exact hnames.nodup_iff.2 hs.types
  notBuiltin := by
    intro t' ht'
    obtain ⟨t, ht, hsame⟩ := h.symm.exists_type ht'
    exact (congrArg (fun t => Kind.ofName? t.name.name) hsame).symm.trans (hs.notBuiltin t ht)
  consts := by
    have hnames := h.consts.map fun c : Script.ConstDecl => c.name.name
    rw [List.map_map, List.map_map] at hnames
    exact hnames.nodup_iff.2 hs.consts

/-- By induction on the derivation; only paths look at the declarations. -/
theorem denotes (h : d.Rearranged d') {e : Script.Expr} {v : Value} (hd : d.Denotes e v) :
    ∀ {e' : Script.Expr}, e'.unplaced = e.unplaced → d'.Denotes e' v := by
  induction hd with
  | literal =>
    intro e' he
    obtain ⟨_, rfl⟩ := Script.Expr.eq_literal he
    exact .literal
  | own hc _ ih =>
    intro e' he
    obtain ⟨p', rfl, hp⟩ := Script.Expr.eq_path he
    obtain ⟨c', hsame, hc'⟩ := h.namesOwn hp hc
    exact .own hc' (ih (congrArg Script.ConstDecl.value hsame))
  | imported hc hv =>
    intro e' he
    obtain ⟨p', rfl, hp⟩ := Script.Expr.eq_path he
    exact .imported (h.namesImported hp hc) (h.snapshot.symm ▸ hv)
  | negate _ hv ih =>
    intro e' he
    obtain ⟨_, _, rfl, hoperand⟩ := Script.Expr.eq_negate he
    exact .negate (ih hoperand) hv
  | binary _ _ hv ihl ihr =>
    intro e' he
    obtain ⟨_, _, _, rfl, hl, hr⟩ := Script.Expr.eq_binary he
    exact .binary (ihl hl) (ihr hr) hv

theorem sound (h : d.Rearranged d') (hs : d.Sound) : d'.Sound where
  names := h.namesSound hs.names
  modifiers := by
    intro t' ht'
    obtain ⟨t, ht, hsame⟩ := h.symm.exists_type ht'
    have hmodifiers : t.modifiers = t'.modifiers := congrArg (·.modifiers) hsame
    exact hmodifiers ▸ hs.modifiers t ht
  bases := by
    intro t' ht'
    obtain ⟨t, ht, hsame⟩ := h.symm.exists_type ht'
    exact h.baseSound hsame.symm (hs.bases t ht)
  fields := by
    intro t' ht'
    obtain ⟨t, ht, hsame⟩ := h.symm.exists_type ht'
    exact h.fieldsSound hsame.symm (hs.fields t ht)
  noBaseCycle := fun n hn =>
    hs.noBaseCycle n (Relation.TransGen.mono (fun _ _ he => h.symm.extends_ he) n n hn)
  paths := by
    intro c' hc' p' hp'
    obtain ⟨c, hc, hsame⟩ := h.symm.exists_const hc'
    obtain ⟨p, hp, hpsame⟩ := Script.ConstDecl.exists_path hsame hp'
    rcases hs.paths c hc p hp with ⟨k, hk⟩ | ⟨m, k, hk⟩
    · obtain ⟨k', -, hk'⟩ := h.namesOwn hpsame.symm hk
      exact .inl ⟨k', hk'⟩
    · exact .inr ⟨m, k, h.namesImported hpsame.symm hk⟩
  noConstCycle := fun n hn =>
    hs.noConstCycle n (Relation.TransGen.mono (fun _ _ hd => h.symm.dependsOn hd) n n hn)
  values := by
    intro c' hc'
    obtain ⟨c, hc, hsame⟩ := h.symm.exists_const hc'
    obtain ⟨v, hv⟩ := hs.values c hc
    exact ⟨v, h.denotes hv (congrArg Script.ConstDecl.value hsame).symm⟩

/-! ### References -/

theorem leadsInto (h : d.Rearranged d') {p p' : Script.Path} (hp : p'.unplaced = p.unplaced)
    {m : String} (hm : d.LeadsInto p m) : d'.LeadsInto p' m := by
  obtain ⟨hne, q, hq, rfl⟩ := hm
  obtain ⟨q', hq', hsame⟩ := Script.Path.qualifier_of_unplaced_eq hp hq
  exact ⟨h.module ▸ hne, q', hq', hsame⟩

theorem refers (h : d.Rearranged d') {m : String} (hm : d.Refers m) : d'.Refers m := by
  rw [refers_iff] at hm ⊢
  rcases hm with ⟨t, ht, p, hp, hm⟩ | ⟨c, hc, p, hp, hm⟩
  · obtain ⟨t', ht', hsame⟩ := h.exists_type ht
    obtain ⟨p', hp', hpsame⟩ := Script.TypeDecl.exists_path hsame hp
    exact .inl ⟨t', ht', p', hp', h.leadsInto hpsame hm⟩
  · obtain ⟨c', hc', hsame⟩ := h.exists_const hc
    obtain ⟨p', hp', hpsame⟩ := Script.ConstDecl.exists_path hsame hp
    exact .inr ⟨c', hc', p', hp', h.leadsInto hpsame hm⟩

/-! ### What is emitted -/

theorem leadsTo (h : d.Rearranged d') {p p' : Script.Path} (hp : p'.unplaced = p.unplaced)
    {r : TypeRef} (hr : d.LeadsTo p r) : d'.LeadsTo p' r :=
  fun r' => (h.namesType_iff hp).trans (hr r')

theorem emitsType (h : d.Rearranged d') {t t' : Script.TypeDecl} (hsame : t'.unplaced = t.unplaced)
    {u : TypeDef} (hu : d.EmitsType t u) : d'.EmitsType t' u where
  name := hu.name.trans (congrArg (·.name.name) hsame).symm
  hash := by
    have hname : t'.name.name = t.name.name := congrArg (·.name.name) hsame
    rw [hu.hash, h.module, hname]
  modifiers := hu.modifiers.trans (congrArg (·.modifiers) hsame).symm
  base := by
    have hbase := Script.TypeDecl.base_of_unplaced_eq hsame
    have hrel := hu.base
    generalize t.base = base at hbase hrel
    generalize u.base = r at hrel ⊢
    cases hrel with
    | none =>
      rw [Option.map_eq_none_iff.1 hbase]
      exact .none
    | some hr =>
      obtain ⟨p', hp', hpsame⟩ := Option.map_eq_some_iff.1 hbase
      rw [hp']
      exact .some (h.leadsTo hpsame hr)
  fields := by
    refine forall₂_of_map_eq hu.fields (fun f f' g hf hg => ?_)
      (Script.TypeDecl.fields_of_unplaced_eq hsame)
    exact ⟨hg.name.trans (congrArg (·.name.name) hf).symm,
      h.leadsTo (congrArg (·.type) hf) hg.type⟩

theorem unfolds (h : d.Rearranged d') {e : Script.Expr} {x : ConstExpr} (hx : d.Unfolds e x) :
    ∀ {e' : Script.Expr}, e'.unplaced = e.unplaced → d'.Unfolds e' x := by
  induction hx with
  | literal =>
    intro e' he
    obtain ⟨_, rfl⟩ := Script.Expr.eq_literal he
    exact .literal
  | own hc =>
    intro e' he
    obtain ⟨p', rfl, hp⟩ := Script.Expr.eq_path he
    obtain ⟨c', -, hc'⟩ := h.namesOwn hp hc
    exact (Script.Path.of_unplaced_eq hp).1 ▸ .own hc'
  | imported hc =>
    intro e' he
    obtain ⟨p', rfl, hp⟩ := Script.Expr.eq_path he
    exact (Script.Path.of_unplaced_eq hp).1 ▸ .imported (h.namesImported hp hc)
  | negate _ ih =>
    intro e' he
    obtain ⟨_, _, rfl, hoperand⟩ := Script.Expr.eq_negate he
    exact .negate (ih hoperand)
  | binary _ _ ihl ihr =>
    intro e' he
    obtain ⟨_, _, _, rfl, hl, hr⟩ := Script.Expr.eq_binary he
    exact .binary (ihl hl) (ihr hr)

theorem emitsConst (h : d.Rearranged d') {o : Optimization} {c c' : Script.ConstDecl}
    (hsame : c'.unplaced = c.unplaced) {k : ConstDef} (hk : d.EmitsConst o c k) :
    d'.EmitsConst o c' k where
  name := hk.name.trans (congrArg (·.name.name) hsame).symm
  init := by
    have hvalue : c'.value.unplaced = c.value.unplaced := congrArg (·.value) hsame
    obtain ⟨v, hv, hkind, hinit⟩ := hk.init
    refine ⟨v, fun w => ⟨fun hw => ?_, fun hw => ?_⟩, hkind, ?_⟩
    · exact (hv w).1 (h.symm.denotes hw hvalue.symm)
    · exact h.denotes ((hv w).2 hw) hvalue
    · generalize k.init = init at hinit ⊢
      cases hinit with
      | release => exact .release
      | debug hx => exact .debug (h.unfolds hx hvalue)

end Rearranged

/-! ## One for each -/

theorem EmitsField.unique {d : Contents} {f : Script.FieldDecl} {g k : Field}
    (hg : d.EmitsField f g) (hk : d.EmitsField f k) : g = k := by
  obtain ⟨name, type⟩ := g
  obtain ⟨name', type'⟩ := k
  rw [show name = name' from hg.name.trans hk.name.symm, show type = type' from
    hg.type.unique hk.type]

theorem EmitsType.unique {d : Contents} {t : Script.TypeDecl} {u w : TypeDef}
    (hu : d.EmitsType t u) (hw : d.EmitsType t w) : u = w := by
  have hbase : u.base = w.base := LeadsTo.rel_unique hu.base hw.base
  have hunique : Relator.RightUnique d.EmitsField := fun _ _ _ hg hk => hg.unique hk
  have hfields : u.fields = w.fields := List.right_unique_forall₂' hunique hu.fields hw.fields
  have hname := hu.name.trans hw.name.symm
  have hhash := hu.hash.trans hw.hash.symm
  have hmodifiers := hu.modifiers.trans hw.modifiers.symm
  cases u
  cases w
  simp_all

theorem Unfolds.unique {d : Contents} {e : Script.Expr} {x y : ConstExpr} (hx : d.Unfolds e x)
    (hy : d.Unfolds e y) : x = y := by
  induction hx generalizing y with
  | literal =>
    cases hy
    rfl
  | own hc =>
    cases hy with
    | own _ => rfl
    | imported hk =>
      obtain ⟨hne, ⟨q, hq, rfl⟩, -⟩ := hk
      exact absurd (hc.isLocal q hq) hne
  | imported hc =>
    obtain ⟨hne, ⟨q, hq, rfl⟩, -⟩ := hc
    cases hy with
    | own hk => exact absurd (hk.isLocal q hq) hne
    | imported hk =>
      obtain ⟨-, ⟨q', hq', rfl⟩, -⟩ := hk
      rw [Option.some_inj.1 (hq.symm.trans hq')]
  | negate _ ih =>
    cases hy with
    | negate hy => rw [ih hy]
  | binary _ _ ihl ihr =>
    cases hy with
    | binary hl hr => rw [ihl hl, ihr hr]

theorem EmitsConst.unique {d : Contents} {o : Optimization} {c : Script.ConstDecl}
    {k l : ConstDef} (hk : d.EmitsConst o c k) (hl : d.EmitsConst o c l) : k = l := by
  obtain ⟨v, hv, hkind, hinit⟩ := hk.init
  obtain ⟨w, hw, hkind', hinit'⟩ := hl.init
  obtain rfl : w = v := (hv w).1 ((hw w).2 rfl)
  have hsame : k.init = l.init := by
    generalize k.init = i at hinit ⊢
    generalize l.init = j at hinit' ⊢
    cases hinit with
    | release =>
      cases hinit'
      rfl
    | debug hx =>
      cases hinit' with
      | debug hy => rw [hx.unique hy]
  have hname := hk.name.trans hl.name.symm
  cases k
  cases l
  simp_all

end Contents

/-! ## Units -/

section Units

variable {sources : List Source} {scripts scripts' : List Script} {snapshot : Snapshot}

theorem Contents.ofSources_of_parse? (module : String)
    (h : List.Forall₂ (fun s script => Script.parse? s.text = .ok script) sources scripts) :
    ofSources module sources snapshot = ofScripts module scripts snapshot := by
  have hscripts : sources.map (fun s => (Script.parse s.text).1) = scripts := by
    rw [← List.forall₂_eq_eq_eq, List.forall₂_map_left_iff]
    exact h.imp fun _ _ hs => congrArg Prod.fst (Script.parse?_eq_ok.1 hs)
  rw [ofSources_eq_ofScripts, hscripts]

/-- Nothing but the declarations matters if all units can be read. -/
theorem wellFormed_iff_sound (module : String)
    (h : List.Forall₂ (fun s script => Script.parse? s.text = .ok script) sources scripts) :
    WellFormed module sources snapshot ↔ (Contents.ofScripts module scripts snapshot).Sound := by
  rw [← Contents.ofSources_of_parse? module h]
  have hreadable : ∀ s ∈ sources, (Script.parse s.text).2 = [] :=
    ((List.forall₂_and_left sources scripts).1 (h.imp fun _ _ hs =>
      ⟨congrArg Prod.snd (Script.parse?_eq_ok.1 hs), hs⟩)).1
  exact ⟨fun hw => hw.sound, fun hs => ⟨fun s hmem _ => hreadable s hmem, hs⟩⟩

theorem Contents.rearranged_of_perm (module : String) (snapshot : Snapshot)
    (h : ((scripts'.flatMap (·.items)).map Script.Item.unplaced).Perm
      ((scripts.flatMap (·.items)).map Script.Item.unplaced)) :
    (ofScripts module scripts snapshot).Rearranged (ofScripts module scripts' snapshot) := by
  have htype : ∀ i : Script.Item, i.unplaced.type? = i.type?.map Script.TypeDecl.unplaced := by
    rintro (_ | _) <;> rfl
  have hconst : ∀ i : Script.Item, i.unplaced.const? = i.const?.map Script.ConstDecl.unplaced := by
    rintro (_ | _) <;> rfl
  refine ⟨rfl, rfl, ?_, ?_⟩
  · have htypes := h.filterMap Script.Item.type?
    simp only [List.filterMap_map, Function.comp_def, htype] at htypes
    simpa only [ofScripts, List.map_filterMap] using htypes
  · have hconsts := h.filterMap Script.Item.const?
    simp only [List.filterMap_map, Function.comp_def, hconst] at hconsts
    simpa only [ofScripts, List.map_filterMap] using hconsts

end Units

/-! ## Interfaces -/

/-- The same modules are referred to, and every name stands for the same in both. -/
structure Interface.Rearranged (i i' : Interface) : Prop where
  name : i'.name = i.name
  optimization : i'.optimization = i.optimization
  references : i'.references = i.references
  types : i'.types.Perm i.types
  type? : ∀ n, i'.type? n = i.type? n
  constants : i'.constants.Perm i.constants
  const? : ∀ n, i'.const? n = i.const? n

namespace Contents

variable {d d' : Contents} {o : Optimization} {i i' : Interface}

theorem Emits.types_nodup (h : d.Emits o i) (hs : d.NamesSound) : (i.types.map (·.name)).Nodup := by
  have hnames : i.types.map (·.name) = d.types.map (·.name.name) := by
    rw [← List.forall₂_eq_eq_eq, List.forall₂_map_left_iff, List.forall₂_map_right_iff]
    exact h.types.flip.imp fun _ _ hu => hu.name
  exact hnames ▸ hs.types

theorem Emits.constants_nodup (h : d.Emits o i) (hs : d.NamesSound) :
    (i.constants.map (·.name)).Nodup := by
  have hnames : i.constants.map (·.name) = d.consts.map (·.name.name) := by
    rw [← List.forall₂_eq_eq_eq, List.forall₂_map_left_iff, List.forall₂_map_right_iff]
    exact h.constants.flip.imp fun _ _ hk => hk.name
  exact hnames ▸ hs.consts

/-- A declared type is found under its name. -/
theorem Emits.type?_of_mem (h : d.Emits o i) (hs : d.NamesSound) {t : Script.TypeDecl}
    (ht : t ∈ d.types) : ∃ u, i.type? t.name.name = some u ∧ d.EmitsType t u := by
  obtain ⟨u, hu, htu⟩ := exists_of_forall₂ h.types ht
  exact ⟨u, (find?_eq_some_of_nodup (h.types_nodup hs)).2 ⟨hu, htu.name⟩, htu⟩

theorem Rearranged.emitted (h : d.Rearranged d') (hs : d.NamesSound) (hi : d.Emits o i)
    (hi' : d'.Emits o i') (hreferences : i'.references = i.references) : i.Rearranged i' := by
  have htypes : i'.types.Perm i.types :=
    perm_of_forall₂ hi'.types (hi.types.imp fun _ _ hu => h.emitsType rfl hu)
      (fun _ _ _ _ hsame hu hw => hu.unique ((refl d').emitsType hsame hw)) h.types
  have hconstants : i'.constants.Perm i.constants :=
    perm_of_forall₂ hi'.constants (hi.constants.imp fun _ _ hk => h.emitsConst rfl hk)
      (fun _ _ _ _ hsame hk hl => hk.unique ((refl d').emitsConst hsame hl)) h.consts
  exact
    { name := (hi'.name.trans h.module).trans hi.name.symm
      optimization := hi'.optimization.trans hi.optimization.symm
      references := hreferences
      types := htypes
      type? := find?_eq_of_perm htypes (hi.types_nodup hs)
      constants := hconstants
      const? := find?_eq_of_perm hconstants (hi.constants_nodup hs) }

end Contents

theorem WellFormed.references_eq {module : String} {sources sources' : List Source}
    {snapshot : Snapshot} (hw : WellFormed module sources snapshot)
    (hw' : WellFormed module sources' snapshot)
    (h : (Contents.ofSources module sources snapshot).Rearranged
      (Contents.ofSources module sources' snapshot)) :
    (Program.ofSources module sources' snapshot).references =
      (Program.ofSources module sources snapshot).references :=
  Program.references_unique fun _ =>
    hw'.mem_references.trans (Iff.trans ⟨h.symm.refers, h.refers⟩ hw.mem_references.symm)

/--
Declarations can be moved within their unit and into other units, before or behind what they use:
the compile succeeds as before, and what it emits has the same references and stands for the same
under every name.
-/
theorem compile_rearranged (options : Options) (module : String) {sources sources' : List Source}
    (snapshot : Snapshot) {scripts scripts' : List Script}
    (hread : List.Forall₂ (fun s script => Script.parse? s.text = .ok script) sources scripts)
    (hread' : List.Forall₂ (fun s script => Script.parse? s.text = .ok script) sources' scripts')
    (hperm : ((scripts'.flatMap (·.items)).map Script.Item.unplaced).Perm
      ((scripts.flatMap (·.items)).map Script.Item.unplaced)) :
    let i := (Program.ofSources module sources snapshot).interface options.optimization
    let i' := (Program.ofSources module sources' snapshot).interface options.optimization
    ((compile options module sources snapshot).output.isSome = true ↔
        (compile options module sources' snapshot).output.isSome = true) ∧
      ∀ o o', (compile options module sources snapshot).output = some o →
        (compile options module sources' snapshot).output = some o' →
          o.image = i.encode ∧ (i.Fits → Interface.decode o.image = .ok i) ∧
            o'.image = i'.encode ∧ (i'.Fits → Interface.decode o'.image = .ok i') ∧
              i.Rearranged i' := by
  have hmoved := Contents.rearranged_of_perm module snapshot hperm
  refine ⟨?_, fun o o' ho ho' => ?_⟩
  · rw [isSome_output, isSome_output, Program.noErrors_ofSources, Program.noErrors_ofSources,
      wellFormed_iff_sound module hread, wellFormed_iff_sound module hread']
    exact ⟨hmoved.sound, hmoved.symm.sound⟩
  · obtain ⟨hw, himage⟩ := compile_output ho
    obtain ⟨hw', himage'⟩ := compile_output ho'
    rw [← Contents.ofSources_of_parse? module hread,
      ← Contents.ofSources_of_parse? module hread'] at hmoved
    have hemits := hw.emits options.optimization
    have hemits' := hw'.emits options.optimization
    rw [Scope.contents_ofSources] at hemits hemits'
    refine ⟨himage, fun hfits => ?_, himage', fun hfits => ?_, ?_⟩
    · exact himage ▸ hw.decode_encode _ hfits
    · exact himage' ▸ hw'.decode_encode _ hfits
    · exact hmoved.emitted hw.sound.names hemits hemits' (hw.references_eq hw' hmoved)

/-! ### Before and behind -/

/-- All is declared behind what uses it, and in two units. -/
def scattered : List Source :=
  [⟨"const AREA = SIDE * SIDE; type Square extends Shape \x7b\x7d", none⟩,
    ⟨"const SIDE = Paint.DEPTH; type Shape \x7b\x7d", none⟩]

/-- The same in one unit and the other way round. -/
def gathered : List Source :=
  [⟨"type Shape \x7b\x7d const SIDE = Paint.DEPTH;
    type Square extends Shape \x7b\x7d const AREA = SIDE * SIDE;", none⟩]

/-- The constants are evaluated in the order of their use. -/
theorem dependencyOrder_scattered :
    let scope := Scope.ofSources "Figures" scattered withPaint
    (Scope.constGraph scope.terms).dependencyOrder = [1, 0] := by
  intro scope
  have hsize : (Scope.constGraph scope.terms).size = 2 := by decide +kernel
  have hedges : (Scope.constGraph scope.terms).edges = [(0, 1), (0, 1)] := by decide +kernel
  generalize Scope.constGraph scope.terms = g at hsize hedges
  obtain ⟨size, edges⟩ := g
  obtain rfl : size = 2 := hsize
  obtain rfl : edges = [(0, 1), (0, 1)] := hedges
  decide +kernel

theorem wellFormed_scattered : WellFormed "Figures" scattered withPaint := by
  have hregistration : (Declarations.ofUnits (readUnits scattered.zipIdx).1).2 = [] := by
    decide +kernel
  rw [← Program.noErrors_ofSources, Program.diagnostics_ofSources, noErrors_append,
    Program.noErrors_mergeSort, Program.semantic, Program.scope_ofUnits hregistration,
    hregistration, ← Scope.ofSources, Scope.resolveConsts_eq, Scope.evaluated,
    dependencyOrder_scattered]
  unfold NoErrors
  decide +kernel

theorem compile_rearranged_scattered :
    (compile .release "Figures" scattered withPaint).output.isSome = true ∧
      (compile .release "Figures" gathered withPaint).output.isSome = true ∧
      ((Program.ofSources "Figures" scattered withPaint).interface .release).Rearranged
        ((Program.ofSources "Figures" gathered withPaint).interface .release) := by
  have hreversed :
      ((gathered.map fun s => (Script.parse s.text).1).flatMap (·.items)).map Script.Item.unplaced =
        (((scattered.map fun s => (Script.parse s.text).1).flatMap (·.items)).map
          Script.Item.unplaced).reverse := by
    decide +kernel
  have hgathered : List.Forall₂ (fun s script => Script.parse? s.text = .ok script) gathered
      (gathered.map fun s => (Script.parse s.text).1) :=
    .cons (by decide +kernel) .nil
  have hsome : (compile .release "Figures" scattered withPaint).output.isSome = true :=
    isSome_output.2 (Program.noErrors_ofSources.2 wellFormed_scattered)
  obtain ⟨hsuccess, hsame⟩ := compile_rearranged .release "Figures" withPaint
    wellFormed_scattered.forall₂_parse? hgathered
    ((List.Perm.of_eq hreversed).trans (List.reverse_perm _))
  obtain ⟨o, ho⟩ := Option.isSome_iff_exists.1 hsome
  obtain ⟨o', ho'⟩ := Option.isSome_iff_exists.1 (hsuccess.1 hsome)
  exact ⟨hsome, hsuccess.1 hsome, (hsame o o' ho ho').2.2.2.2⟩

end Linkage
