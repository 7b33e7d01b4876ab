import Linkage.Host.Registry
import Linkage.Proofs.Snapshot

/-!
# Linkage.Proofs.Host.Registry

One registry: what the views of it give, and what holds of all its entries.

* `mem_snapshot`, `get?_resolver` — the view for compiles and the view for run time.
* `Registry.All P` — `P` holds of every entry, kept by whatever adds only entries with `P`.
* `Registry.Proper` — every name has one entry, kept by every operation.
* `Registry.Keeps` — no entry is lost and none loses its reference, by any operation.
-/

namespace Linkage

theorem Store.mem_names {α : Type} {s : Store α} {name : String} {a : α}
    (h : s.get? name = some a) : name ∈ s.names := by
  rw [Store.names, List.mem_mergeSort]
  obtain ⟨l, r, hes, -⟩ := List.lookup_eq_some_iff.1 h
  rw [hes]
  exact List.mem_map.2 ⟨(name, a), List.mem_append_right _ List.mem_cons_self, rfl⟩

namespace Registry

/-! ## Views -/

theorem get?_resolver (r : Registry) (name : String) : r.resolver.get? name = r.resolve? name := by
  have hentry : ∀ e ∈ r.resolver.entries, r.resolve? e.1 = some e.2 := by
    intro e he
    obtain ⟨n, -, hn⟩ := List.mem_filterMap.1 he
    obtain ⟨k, hk, rfl⟩ := Option.map_eq_some_iff.1 hn
    exact hk
  cases hr : r.resolve? name with
  | none =>
    have hnone : r.resolver.entries.find? (·.1 == name) = none := by
      refine List.find?_eq_none.2 fun e he hname => ?_
      have := hentry e he
      rw [beq_iff_eq.1 hname, hr] at this
      cases this
    rw [Resolver.get?, hnone]
    rfl
  | some k =>
    have hmem : (name, k) ∈ r.resolver.entries := by
      obtain ⟨e, he, -⟩ := Option.map_eq_some_iff.1 hr
      exact List.mem_filterMap.2 ⟨name, Store.mem_names he, by rw [hr]; rfl⟩
    have hsome : (r.resolver.entries.find? (·.1 == name)).isSome = true :=
      List.find?_isSome.2 ⟨_, hmem, beq_self_eq_true name⟩
    obtain ⟨e, he⟩ := Option.isSome_iff_exists.1 hsome
    have hname : (e.1 == name) = true :=
      List.find?_some (p := fun e : String × Handle => e.1 == name) he
    have := hentry e (List.mem_of_find?_eq_some he)
    rw [beq_iff_eq.1 hname, hr] at this
    rw [Resolver.get?, he]
    exact this.symm

/-- What a compile can refer to comes from the entries, whatever name they are under. -/
theorem mem_snapshot {r : Registry} {reference : Reference}
    (h : reference ∈ r.snapshot.references) :
    ∃ name e, r.entry? name = some e ∧ e.reference = some reference := by
  obtain ⟨name, -, hname⟩ := List.mem_filterMap.1 (Snapshot.mem_of_mem_ofList h)
  obtain ⟨e, he, href⟩ := Option.bind_eq_some_iff.1 hname
  exact ⟨name, e, he, href⟩

/-! ## Admission -/

theorem entry?_put (s : Store Entry) (name other : String) (e : Entry) :
    entry? ⟨s.put name e⟩ other = if other = name then some e else entry? ⟨s⟩ other :=
  s.get?_put name other e

theorem entry?_register (r : Registry) (name other : String) (reference : Reference) (h : Handle) :
    Registry.entry? (r.register name reference h).2 other =
      if other = name then some ⟨some reference, h⟩ else r.entry? other :=
  entry?_put _ _ _ _

theorem enroll_ok {r r' : Registry} {files : Files} {h : Handle}
    (he : r.enroll files h = .ok (some r')) :
    r.entry? h.name = none ∧ ∃ reference, hostReference files h = .ok reference ∧
      r' = ⟨r.entries.put h.name ⟨reference, h⟩⟩ := by
  unfold enroll at he
  split at he
  · cases he
  · rename_i hnew
    split at he
    · cases he
    · rename_i reference href
      cases he
      exact ⟨by simpa [contains, Store.contains, entry?] using hnew, reference, href, rfl⟩

/-- What enrolling one module keeps, enrolling all of them keeps, complete or not. -/
theorem enrollAll_induction {M : Registry → Prop} {files : Files} {hs : List Handle} {r : Registry}
    (hr : M r) (hstep : ∀ r r', ∀ h ∈ hs, M r → r.enroll files h = .ok (some r') → M r') :
    M (enrollAll files r hs).2 := by
  induction hs generalizing r with
  | nil => exact hr
  | cons h hs ih =>
    have hrest {r : Registry} (hr : M r) : M (enrollAll files r hs).2 :=
      ih hr fun r r' k hk => hstep r r' k (List.mem_cons_of_mem h hk)
    unfold enrollAll
    split
    · exact hr
    · exact hrest hr
    · rename_i r' he
      have := hrest (hstep r r' h List.mem_cons_self hr he)
      split
      · rename_i hn
        rwa [hn] at this
      · rename_i hn
        rwa [hn] at this

theorem observe_induction {M : Registry → Prop} {files : Files} {h : Handle} {r : Registry}
    (hr : M r) (hstep : ∀ r', r.enroll files h = .ok (some r') → M r') :
    M (r.observe files h) := by
  unfold observe
  split
  · exact hr
  · split
    · rename_i r' he
      exact hstep r' he
    · exact hr

/-! ## All entries -/

def All (P : String → Entry → Prop) (r : Registry) : Prop :=
  ∀ name e, r.entry? name = some e → P name e

variable {P : String → Entry → Prop}

theorem all_empty : All P empty := fun _ _ h => nomatch h

theorem All.register {r : Registry} (hr : r.All P) {name : String} {reference : Reference}
    {h : Handle} (hP : P name ⟨some reference, h⟩) : (r.register name reference h).2.All P := by
  intro other e he
  rw [entry?_register] at he
  split at he
  · rename_i hname
    subst hname
    cases he
    exact hP
  · exact hr other e he

theorem All.enroll {r r' : Registry} (hr : r.All P) {files : Files} {h : Handle}
    (hP : ∀ reference, hostReference files h = .ok reference → P h.name ⟨reference, h⟩)
    (he : r.enroll files h = .ok (some r')) : r'.All P := by
  obtain ⟨-, reference, href, rfl⟩ := enroll_ok he
  intro other e hother
  rw [entry?_put] at hother
  split at hother
  · rename_i hname
    subst hname
    cases hother
    exact hP reference href
  · exact hr other e hother

theorem All.enrollAll {files : Files} {hs : List Handle}
    (hP : ∀ h ∈ hs, ∀ reference, hostReference files h = .ok reference → P h.name ⟨reference, h⟩)
    {r : Registry} (hr : r.All P) : (enrollAll files r hs).2.All P :=
  enrollAll_induction hr fun _ _ h hh hr he => hr.enroll (hP h hh) he

theorem All.observe {r : Registry} (hr : r.All P) {files : Files} {h : Handle}
    (hP : ∀ reference, hostReference files h = .ok reference → P h.name ⟨reference, h⟩) :
    (r.observe files h).All P :=
  observe_induction hr fun _ he => hr.enroll hP he

/-! ## One entry for each name -/

def Proper (r : Registry) : Prop := (r.entries.entries.map Prod.fst).Nodup

theorem proper_empty : Proper empty := List.nodup_nil

theorem Proper.nodup_names {r : Registry} (h : r.Proper) : r.names.Nodup :=
  (List.mergeSort_perm _ _).nodup_iff.2 h

theorem proper_put {s : Store Entry} (h : Proper ⟨s⟩) (name : String) (e : Entry) :
    Proper ⟨s.put name e⟩ := by
  have hfilter : (s.entries.filter (·.1 != name)).map Prod.fst =
      (s.entries.map Prod.fst).filter (· != name) := by
    rw [List.filter_map]
    rfl
  simp only [Proper, Store.put, List.map_cons, List.nodup_cons, hfilter]
  refine ⟨fun hmem => ?_, h.filter _⟩
  have := (List.mem_filter.1 hmem).2
  simp at this

theorem Proper.register {r : Registry} (h : r.Proper) (name : String) (reference : Reference)
    (k : Handle) : (r.register name reference k).2.Proper :=
  proper_put h name _

theorem Proper.enroll {r r' : Registry} (h : r.Proper) {files : Files} {k : Handle}
    (he : r.enroll files k = .ok (some r')) : r'.Proper := by
  obtain ⟨-, reference, -, rfl⟩ := enroll_ok he
  exact proper_put h _ _

theorem Proper.enrollAll {r : Registry} (h : r.Proper) (files : Files) (ks : List Handle) :
    (enrollAll files r ks).2.Proper :=
  enrollAll_induction h fun _ _ _ _ h he => h.enroll he

theorem Proper.observe {r : Registry} (h : r.Proper) (files : Files) (k : Handle) :
    (r.observe files k).Proper :=
  observe_induction h fun _ he => h.enroll he

/-! ## Nothing is lost -/

/-- Every entry is still there, and where there was a reference there is one. -/
def Keeps (r later : Registry) : Prop :=
  ∀ name e, r.entry? name = some e → ∃ e', later.entry? name = some e' ∧
    (e.reference.isSome = true → e'.reference.isSome = true)

theorem Keeps.refl (r : Registry) : r.Keeps r := fun _ e he => ⟨e, he, id⟩

theorem Keeps.trans {r s t : Registry} (h : r.Keeps s) (h' : s.Keeps t) : r.Keeps t := by
  intro name e he
  obtain ⟨e', he', href⟩ := h name e he
  obtain ⟨e'', he'', href'⟩ := h' name e' he'
  exact ⟨e'', he'', href' ∘ href⟩

theorem keeps_register (r : Registry) (name : String) (reference : Reference) (k : Handle) :
    r.Keeps (r.register name reference k).2 := by
  intro other e he
  rw [entry?_register]
  by_cases h : other = name
  · exact ⟨_, if_pos h, fun _ => rfl⟩
  · exact ⟨e, (if_neg h).trans he, id⟩

/-- Enrolling a module changes no entry. -/
theorem entry?_enroll {r r' : Registry} {files : Files} {k : Handle}
    (h : r.enroll files k = .ok (some r')) {name : String} {e : Entry}
    (he : r.entry? name = some e) : r'.entry? name = some e := by
  obtain ⟨hnew, reference, -, rfl⟩ := enroll_ok h
  rw [entry?_put]
  by_cases hname : name = k.name
  · rw [hname, hnew] at he
    cases he
  · exact (if_neg hname).trans he

theorem entry?_enrollAll {r : Registry} {name : String} {e : Entry} (he : r.entry? name = some e)
    (files : Files) (ks : List Handle) : Registry.entry? (enrollAll files r ks).2 name = some e :=
  enrollAll_induction (M := fun r => r.entry? name = some e) he
    fun _ _ _ _ he h => entry?_enroll h he

theorem entry?_observe {r : Registry} {name : String} {e : Entry} (he : r.entry? name = some e)
    (files : Files) (k : Handle) : Registry.entry? (r.observe files k) name = some e :=
  observe_induction (M := fun r => r.entry? name = some e) he fun _ h => entry?_enroll h he

theorem keeps_enrollAll (r : Registry) (files : Files) (ks : List Handle) :
    r.Keeps (enrollAll files r ks).2 :=
  fun _ e he => ⟨e, entry?_enrollAll he files ks, id⟩

theorem keeps_observe (r : Registry) (files : Files) (k : Handle) : r.Keeps (r.observe files k) :=
  fun _ e he => ⟨e, entry?_observe he files k, id⟩

/-- Modules from memory are left to whoever loaded them. -/
theorem observe_dynamic {r : Registry} {files : Files} {h : Handle} (hd : h.dynamic = true) :
    r.observe files h = r := by
  unfold Registry.observe
  rw [hd, Bool.true_or]
  rfl

end Registry

end Linkage
