import Linkage.Build.Scope
import Linkage.Proofs.Build.WellFormed
import Mathlib.Data.List.Nodup

/-!
# Linkage.Proofs.Build.Paths

The paths of a scope against what they are meant to lead to. If all names are sound, a name and
the index of its declaration say the same.

* `typeRef_eq_ok` — paths in type position.
* `constTarget_eq_own`, `constTarget_eq_imported` — paths in expressions.
-/

namespace Linkage

/-! ## Names and indices -/

theorem findIdx?_eq_some_of_nodup {α : Type} {f : α → String} {xs : List α}
    (h : (xs.map f).Nodup) {n : String} {id : Nat} :
    xs.findIdx? (f · == n) = some id ↔ ∃ x, xs[id]? = some x ∧ f x = n := by
  rw [List.findIdx?_eq_some_iff_getElem]
  constructor
  · rintro ⟨hid, hn, -⟩
    exact ⟨xs[id], List.getElem?_eq_getElem hid, beq_iff_eq.1 hn⟩
  · rintro ⟨x, hx, hn⟩
    obtain ⟨hid, rfl⟩ := List.getElem?_eq_some_iff.1 hx
    refine ⟨hid, beq_iff_eq.2 hn, fun j hj hjn => ?_⟩
    have hne := List.pairwise_iff_getElem.1 h j id (by simp; omega) (by simpa using hid) hj
    rw [List.getElem_map, List.getElem_map, beq_iff_eq.1 hjn, hn] at hne
    exact hne rfl

theorem find?_eq_some_of_nodup {α : Type} {f : α → String} {xs : List α} (h : (xs.map f).Nodup)
    {n : String} {x : α} :
    xs.find? (f · == n) = some x ↔ x ∈ xs ∧ f x = n := by
  constructor
  · exact fun hx => ⟨List.mem_of_find?_eq_some hx,
      beq_iff_eq.1 (List.find?_some (p := fun y => f y == n) hx)⟩
  · rintro ⟨hx, rfl⟩
    obtain ⟨y, hy⟩ := Option.isSome_iff_exists.1
      (List.find?_isSome.2 ⟨x, hx, beq_self_eq_true (f x)⟩ : (xs.find? (f · == f x)).isSome = true)
    have hsame : f y = f x := beq_iff_eq.1 (List.find?_some (p := fun y => f y == f x) hy)
    rwa [List.inj_on_of_nodup_map h (List.mem_of_find?_eq_some hy) hx hsame] at hy

theorem Contents.NamesType.declared {d : Contents} {p : Script.Path} {n : String}
    (h : d.NamesType p (.own n)) : ∃ t ∈ d.types, t.name.name = n := by
  cases h with
  | own ht hn => exact ⟨_, ht, hn⟩
  | self _ ht hn => exact ⟨_, ht, hn⟩

namespace Scope

def contents (s : Scope) : Contents :=
  { module := s.module
    snapshot := s.snapshot
    types := s.decls.types.map (·.decl)
    consts := s.decls.constants.map (·.decl) }

variable {s : Scope}

theorem nodup_typeNames (h : s.contents.NamesSound) :
    (s.decls.types.map (·.decl.name.name)).Nodup := by
  have hnodup := h.types
  rwa [contents, List.map_map] at hnodup

theorem nodup_constNames (h : s.contents.NamesSound) :
    (s.decls.constants.map (·.decl.name.name)).Nodup := by
  have hnodup := h.consts
  rwa [contents, List.map_map] at hnodup

theorem typeId?_eq_some (h : s.contents.NamesSound) {n : String} {id : Nat} :
    s.decls.typeId? n = some id ↔ ∃ t, s.decls.types[id]? = some t ∧ t.decl.name.name = n :=
  findIdx?_eq_some_of_nodup (nodup_typeNames h)

theorem constId?_eq_some (h : s.contents.NamesSound) {n : String} {id : Nat} :
    s.decls.constId? n = some id ↔
      ∃ c, s.decls.constants[id]? = some c ∧ c.decl.name.name = n :=
  findIdx?_eq_some_of_nodup (nodup_constNames h)

theorem mem_types_iff {t : Script.TypeDecl} :
    t ∈ s.contents.types ↔
      ∃ (id : Nat) (x : Declared Script.TypeDecl), s.decls.types[id]? = some x ∧ x.decl = t := by
  rw [contents, List.mem_map]
  constructor
  · rintro ⟨x, hx, rfl⟩
    obtain ⟨id, hid⟩ := List.mem_iff_getElem?.1 hx
    exact ⟨id, x, hid, rfl⟩
  · rintro ⟨id, x, hid, rfl⟩
    exact ⟨x, List.mem_of_getElem? hid, rfl⟩

theorem mem_consts_iff {c : Script.ConstDecl} :
    c ∈ s.contents.consts ↔
      ∃ (id : Nat) (x : Declared Script.ConstDecl), s.decls.constants[id]? = some x ∧ x.decl = c := by
  rw [contents, List.mem_map]
  constructor
  · rintro ⟨x, hx, rfl⟩
    obtain ⟨id, hid⟩ := List.mem_iff_getElem?.1 hx
    exact ⟨id, x, hid, rfl⟩
  · rintro ⟨id, x, hid, rfl⟩
    exact ⟨x, List.mem_of_getElem? hid, rfl⟩

theorem typeId?_of_mem (h : s.contents.NamesSound) {t : Script.TypeDecl} {n : String}
    (ht : t ∈ s.contents.types) (hn : t.name.name = n) : ∃ id, s.decls.typeId? n = some id := by
  obtain ⟨id, x, hid, rfl⟩ := mem_types_iff.1 ht
  exact ⟨id, (typeId?_eq_some h).2 ⟨x, hid, hn⟩⟩

/-! ## Types -/

theorem ownType_eq_ok (h : s.contents.NamesSound) {p : Script.Path} {r : TypeRef} :
    s.ownType p = .ok r ↔
      (∃ t ∈ s.contents.types, t.name.name = p.name.name) ∧ r = .own p.name.name := by
  unfold ownType
  split
  · rename_i id hid
    obtain ⟨x, hx, hn⟩ := (typeId?_eq_some h).1 hid
    have hmem : ∃ t ∈ s.contents.types, t.name.name = p.name.name :=
      ⟨x.decl, mem_types_iff.2 ⟨id, x, hx, rfl⟩, hn⟩
    rw [Except.ok.injEq]
    exact ⟨fun hr => ⟨hmem, hr.symm⟩, fun hr => hr.2.symm⟩
  · rename_i hnone
    refine iff_of_false (fun hr => nomatch hr) ?_
    rintro ⟨⟨t, ht, hn⟩, -⟩
    obtain ⟨id, hid⟩ := typeId?_of_mem h ht hn
    rw [hnone] at hid
    cases hid

theorem outward?_eq_some {p : Script.Path} {q : Script.Ident} :
    s.outward? p = some q ↔ p.qualifier = some q ∧ q.name ≠ s.module := by
  unfold outward?
  split
  · rename_i hq
    simp [hq]
  · rename_i q' hq
    split
    · rename_i hm
      simp only [hq, reduceCtorEq, Option.some.injEq, false_iff, not_and]
      rintro rfl hne
      exact hne hm
    · rename_i hm
      simp only [hq, Option.some.injEq]
      exact ⟨fun hr => hr ▸ ⟨rfl, hm⟩, fun hr => hr.1⟩

theorem outward?_eq_none {p : Script.Path} : s.outward? p = none ↔ s.contents.Local p := by
  unfold outward? Contents.Local
  split
  · rename_i hq
    simp [hq]
  · rename_i q hq
    split
    · rename_i hm
      simp only [hq, Option.some.injEq, true_iff]
      rintro q' rfl
      exact hm
    · rename_i hm
      refine iff_of_false (fun hr => nomatch hr) fun hr => hm (hr q hq)

theorem namesType_outward {p : Script.Path} {q : Script.Ident} (hq : s.outward? p = some q)
    {r : TypeRef} :
    s.contents.NamesType p r ↔
      (∃ t, s.snapshot.type? q.name p.name.name = some t) ∧ r = .imported q.name p.name.name := by
  obtain ⟨hqual, hne⟩ := outward?_eq_some.1 hq
  obtain ⟨qualifier, name⟩ := p
  obtain rfl : qualifier = some q := hqual
  constructor
  · intro h
    cases h with
    | self hm _ _ => exact absurd hm hne
    | imported _ ht => exact ⟨⟨_, ht⟩, rfl⟩
  · rintro ⟨⟨t, ht⟩, rfl⟩
    exact .imported hne ht

theorem namesType_local {p : Script.Path} (hl : s.contents.Local p) {r : TypeRef} :
    s.contents.NamesType p r ↔
      (p.qualifier = none ∧ ∃ k, Kind.ofName? p.name.name = some k ∧ r = .builtin k) ∨
        ((∃ t ∈ s.contents.types, t.name.name = p.name.name) ∧ r = .own p.name.name) := by
  obtain ⟨qualifier, name⟩ := p
  constructor
  · intro h
    cases h with
    | builtin hk => exact .inl ⟨rfl, _, hk, rfl⟩
    | own ht hn => exact .inr ⟨⟨_, ht, hn⟩, rfl⟩
    | self _ ht hn => exact .inr ⟨⟨_, ht, hn⟩, rfl⟩
    | imported hne _ => exact absurd (hl _ rfl) hne
  · rintro (⟨hnone, k, hk, rfl⟩ | ⟨⟨t, ht, hn⟩, rfl⟩)
    · obtain rfl : qualifier = none := hnone
      exact .builtin hk
    · cases qualifier with
      | none => exact .own ht hn
      | some q => exact .self (hl q rfl) ht hn

theorem typeRef_eq_ok (h : s.contents.NamesSound) {p : Script.Path} {r : TypeRef} :
    (s.typeRef p).found = .ok r ↔ s.contents.NamesType p r := by
  cases hq : s.outward? p with
  | some q =>
    rw [namesType_outward hq]
    simp only [typeRef, hq, external, Snapshot.type?]
    cases s.snapshot.get? q.name with
    | none => simp [Lookup.andThen]
    | some ref =>
      dsimp only [Lookup.andThen]
      cases ref.interface.type? p.name.name with
      | none => simp
      | some t => simp [eq_comm]
  | none =>
    rw [namesType_local (outward?_eq_none.1 hq), ← ownType_eq_ok h]
    simp only [typeRef, hq, Lookup.inside]
    cases hqual : p.qualifier with
    | some q => simp
    | none =>
      cases hk : Kind.ofName? p.name.name with
      | none => simp
      | some k =>
        have hown : ¬ s.ownType p = .ok r := by
          rw [ownType_eq_ok h]
          rintro ⟨⟨t, ht, hn⟩, -⟩
          have := h.notBuiltin t ht
          rw [hn, hk] at this
          cases this
        simp [hown, eq_comm]

/-- The qualifier names no module of the snapshot. -/
def Unresolved (s : Scope) (p : Script.Path) (q : Script.Ident) : Prop :=
  s.outward? p = some q ∧ s.snapshot.get? q.name = none

/-- Either the qualifier is at fault, or else the name is. -/
theorem typeRef_eq_error {p : Script.Path} {x : Problem × Span}
    (h : (s.typeRef p).found = .error x) :
    (∃ q, s.Unresolved p q ∧ x = (.unresolvedModule q.name, q.span)) ∨
      (∀ q, ¬ s.Unresolved p q) ∧
        x = (.unknownType (p.qualifier.map (·.name)) p.name.name, p.span) := by
  unfold typeRef at h
  cases hq : s.outward? p with
  | some q =>
    obtain ⟨hqual, -⟩ := outward?_eq_some.1 hq
    simp only [hq, external] at h
    cases hget : s.snapshot.get? q.name with
    | none =>
      simp only [hget, Lookup.andThen, Except.error.injEq] at h
      exact .inl ⟨q, ⟨hq, hget⟩, h.symm⟩
    | some r =>
      refine .inr ⟨fun q' hq' => ?_, ?_⟩
      · obtain rfl := Option.some_inj.1 (hq.symm.trans hq'.1)
        cases hget.symm.trans hq'.2
      · simp only [hget, Lookup.andThen] at h
        split at h <;> cases h
        rw [hqual]
        rfl
  | none =>
    simp only [hq, Lookup.inside] at h
    refine .inr ⟨fun q hq' => ?_, ?_⟩
    · cases hq.symm.trans hq'.1
    · split at h
      · cases h
      · unfold ownType at h
        split at h <;> cases h
        rfl

/-- What a path that is found leads to, and what was taken to find it. -/
theorem typeRef_cases {p : Script.Path} {r : TypeRef} (h : (s.typeRef p).found = .ok r) :
    (∃ q, s.outward? p = some q ∧ r.module? = some q.name ∧ (s.typeRef p).modules = [q.name]) ∨
      r.module? = none ∧ (s.typeRef p).modules = [] := by
  unfold typeRef at h ⊢
  cases hq : s.outward? p with
  | some q =>
    simp only [hq, external] at h ⊢
    cases hget : s.snapshot.get? q.name with
    | none =>
      simp only [hget, Lookup.andThen] at h
      cases h
    | some ref =>
      simp only [hget, Lookup.andThen] at h ⊢
      split at h <;> cases h
      exact .inl ⟨q, rfl, rfl, rfl⟩
  | none =>
    simp only [hq, Lookup.inside] at h ⊢
    split at h
    · cases h
      exact .inr ⟨rfl, trivial⟩
    · unfold ownType at h
      split at h <;> cases h
      exact .inr ⟨rfl, trivial⟩

theorem outward_of_module? {p : Script.Path} {r : TypeRef} (h : (s.typeRef p).found = .ok r)
    {m : String} (hm : r.module? = some m) : ∃ q, s.outward? p = some q ∧ q.name = m := by
  rcases typeRef_cases h with ⟨q, hq, hmodule, -⟩ | ⟨hmodule, -⟩
  · exact ⟨q, hq, Option.some_inj.1 (hmodule.symm.trans hm)⟩
  · cases hmodule.symm.trans hm

/-- A path that is found took the module that it is found in. -/
theorem modules_typeRef {p : Script.Path} {r : TypeRef} (h : (s.typeRef p).found = .ok r) :
    (s.typeRef p).modules = r.module?.toList := by
  rcases typeRef_cases h with ⟨q, -, hmodule, htaken⟩ | ⟨hmodule, htaken⟩
  · rw [hmodule, htaken, Option.toList_some]
  · rw [hmodule, htaken, Option.toList_none]

theorem typeRef_error {p : Script.Path} {problem : Problem} {span : Span}
    (h : (s.typeRef p).found = .error (problem, span)) : problem.code.severity = .error := by
  rcases typeRef_eq_error h with ⟨q, -, heq⟩ | ⟨-, heq⟩ <;> cases heq <;> rfl

/-! ## Constants -/

theorem constTarget_eq_imported {p : Script.Path} {m : String} {c : ConstDef} :
    (s.constTarget p).found = .ok (.imported m c) ↔ s.contents.NamesImported p m c := by
  have hiff : s.contents.NamesImported p m c ↔
      ∃ q, s.outward? p = some q ∧ q.name = m ∧ s.snapshot.const? m p.name.name = some c := by
    constructor
    · rintro ⟨hne, ⟨q, hqual, rfl⟩, hc⟩
      exact ⟨q, outward?_eq_some.2 ⟨hqual, hne⟩, rfl, hc⟩
    · rintro ⟨q, hq, rfl, hc⟩
      obtain ⟨hqual, hne⟩ := outward?_eq_some.1 hq
      exact ⟨hne, ⟨q, hqual, rfl⟩, hc⟩
  rw [hiff]
  cases hq : s.outward? p with
  | some q =>
    simp only [constTarget, hq, external, Snapshot.const?, Option.some.injEq]
    cases hr : s.snapshot.get? q.name with
    | none =>
      refine iff_of_false (by intro he; cases he) ?_
      rintro ⟨q', rfl, rfl, hc⟩
      simp only [hr, reduceCtorEq] at hc
    | some r =>
      dsimp only [Lookup.andThen]
      cases hc : r.interface.const? p.name.name with
      | none =>
        refine iff_of_false (by intro he; cases he) ?_
        rintro ⟨q', rfl, rfl, hc'⟩
        simp only [hr, hc, reduceCtorEq] at hc'
      | some c' =>
        constructor
        · intro he
          cases he
          exact ⟨q, rfl, rfl, by simp only [hr, hc]⟩
        · rintro ⟨q', rfl, rfl, hc'⟩
          simp only [hr, hc, Option.some.injEq] at hc'
          rw [hc']
  | none =>
    simp only [constTarget, hq, Lookup.inside]
    split <;> simp

theorem constTarget_eq_own {p : Script.Path} {id : Nat} :
    (s.constTarget p).found = .ok (.own id) ↔
      s.contents.Local p ∧ s.decls.constId? p.name.name = some id := by
  rw [← outward?_eq_none]
  cases hq : s.outward? p with
  | some q =>
    simp only [constTarget, hq, external, reduceCtorEq, false_and, iff_false]
    cases s.snapshot.get? q.name with
    | none => exact fun he => nomatch he
    | some r =>
      dsimp only [Lookup.andThen]
      split <;> exact fun he => nomatch he
  | none =>
    simp only [constTarget, hq, Lookup.inside, true_and]
    cases s.decls.constId? p.name.name with
    | none => simp
    | some i => simp

theorem namesOwn_iff (h : s.contents.NamesSound) {p : Script.Path} {c : Script.ConstDecl} :
    s.contents.NamesOwn p c ↔
      ∃ id, (s.constTarget p).found = .ok (.own id) ∧
        ∃ x, s.decls.constants[id]? = some x ∧ x.decl = c := by
  constructor
  · rintro ⟨hl, hc, hn⟩
    obtain ⟨id, x, hx, rfl⟩ := mem_consts_iff.1 hc
    exact ⟨id, constTarget_eq_own.2 ⟨hl, (constId?_eq_some h).2 ⟨x, hx, hn⟩⟩, x, hx, rfl⟩
  · rintro ⟨id, ht, x, hx, rfl⟩
    obtain ⟨hl, hid⟩ := constTarget_eq_own.1 ht
    obtain ⟨y, hy, hn⟩ := (constId?_eq_some h).1 hid
    obtain rfl := Option.some_inj.1 (hx.symm.trans hy)
    exact ⟨hl, mem_consts_iff.2 ⟨id, x, hx, rfl⟩, hn⟩

theorem constTarget_eq_error {p : Script.Path} {x : Problem × Span}
    (h : (s.constTarget p).found = .error x) :
    (∃ q, s.Unresolved p q ∧ x = (.unresolvedModule q.name, q.span)) ∨
      (∀ q, ¬ s.Unresolved p q) ∧
        x = (.unknownConstant (p.qualifier.map (·.name)) p.name.name, p.span) := by
  unfold constTarget at h
  cases hq : s.outward? p with
  | some q =>
    obtain ⟨hqual, -⟩ := outward?_eq_some.1 hq
    simp only [hq, external] at h
    cases hget : s.snapshot.get? q.name with
    | none =>
      simp only [hget, Lookup.andThen, Except.error.injEq] at h
      exact .inl ⟨q, ⟨hq, hget⟩, h.symm⟩
    | some r =>
      refine .inr ⟨fun q' hq' => ?_, ?_⟩
      · obtain rfl := Option.some_inj.1 (hq.symm.trans hq'.1)
        cases hget.symm.trans hq'.2
      · simp only [hget, Lookup.andThen] at h
        split at h <;> cases h
        rw [hqual]
        rfl
  | none =>
    simp only [hq, Lookup.inside] at h
    refine .inr ⟨fun q hq' => ?_, ?_⟩
    · cases hq.symm.trans hq'.1
    · split at h <;> cases h
      rfl

theorem modules_constTarget_own {p : Script.Path} {id : Nat}
    (h : (s.constTarget p).found = .ok (.own id)) : (s.constTarget p).modules = [] := by
  have hq := outward?_eq_none.2 (constTarget_eq_own.1 h).1
  simp only [constTarget, hq, Lookup.inside]

theorem modules_constTarget_imported {p : Script.Path} {m : String} {c : ConstDef}
    (h : (s.constTarget p).found = .ok (.imported m c)) : (s.constTarget p).modules = [m] := by
  have hnames := constTarget_eq_imported.1 h
  obtain ⟨q, hqual, rfl⟩ := hnames.qualifier
  have hq : s.outward? p = some q := outward?_eq_some.2 ⟨hqual, hnames.outward⟩
  simp only [constTarget, hq, external] at h ⊢
  cases hget : s.snapshot.get? q.name with
  | none =>
    simp only [hget, Lookup.andThen] at h
    cases h
  | some r => rfl

theorem constTarget_error {p : Script.Path} {problem : Problem} {span : Span}
    (h : (s.constTarget p).found = .error (problem, span)) : problem.code.severity = .error := by
  rcases constTarget_eq_error h with ⟨q, -, heq⟩ | ⟨-, heq⟩ <;> cases heq <;> rfl

end Scope

end Linkage
