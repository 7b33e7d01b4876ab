import Linkage.Proofs.Build.Paths
import Linkage.Proofs.Snapshot
import Linkage.Proofs.Text.ByteOrder
import Mathlib.Data.List.Destutter
import Mathlib.Data.List.OfFn
import Mathlib.Logic.Equiv.Basic

/-!
# Linkage.Proofs.Snapshot.FirstWins

A snapshot is the map from each name to the first reference of that name.

* `eq_of_find?_eq` — references in ascending order of names are determined by what is found there.
* `sortedFirsts` — the references sorted by name, and of neighbours of one name the first: the
  sort is stable, so nothing else is found than in the references themselves.
* `bisect` — search by halving, which finds all there is if the names ascend strictly.
* `KeepsOrder` — permutations under which references of one name stay in order.
* `ofList_first_wins` — all of this is the snapshot.
-/

namespace Linkage
namespace Snapshot

/-! ## Ascending references -/

abbrev Ascending (rs : List Reference) : Prop := rs.Pairwise fun a b => a.name < b.name

theorem Ascending.nodup_names {rs : List Reference} (h : Ascending rs) :
    (rs.map (·.name)).Nodup :=
  List.pairwise_map.2 (h.imp fun {_ _} hab => Std.ne_of_lt hab)

theorem eq_of_find?_eq {rs ss : List Reference} (hr : Ascending rs) (hs : Ascending ss)
    (h : ∀ name, rs.find? (·.name == name) = ss.find? (·.name == name)) : rs = ss := by
  have hmem (r : Reference) : r ∈ rs ↔ r ∈ ss := by
    have hfind : rs.find? (·.name == r.name) = some r ↔ ss.find? (·.name == r.name) = some r := by
      rw [h]
    rw [find?_eq_some_of_nodup hr.nodup_names, find?_eq_some_of_nodup hs.nodup_names] at hfind
    simpa using hfind
  have hperm : rs.Perm ss :=
    (List.perm_ext_iff_of_nodup (.of_map _ hr.nodup_names) (.of_map _ hs.nodup_names)).2 hmem
  exact hperm.eq_of_pairwise
    (fun a b _ _ hab hba => absurd (String.lt_trans hab hba) (String.lt_irrefl _)) hr hs

/-! ## Sorting -/

/-- Sorted by name, and of neighbours of one name the first. -/
def sortedFirsts (rs : List Reference) : List Reference :=
  (rs.mergeSort fun a b => a.name ≤ b.name).destutter fun a b => a.name ≠ b.name

/-- The references of one name are in ascending order as they are, so the sort keeps their order. -/
theorem filter_mergeSort (rs : List Reference) (name : String) :
    (rs.mergeSort fun a b => a.name ≤ b.name).filter (·.name == name) =
      rs.filter (·.name == name) := by
  have hascending : (rs.filter (·.name == name)).Pairwise fun a b => decide (a.name ≤ b.name) := by
    refine List.pairwise_of_forall_mem_list fun a ha b hb => ?_
    rw [beq_iff_eq.1 (List.mem_filter.1 ha).2, beq_iff_eq.1 (List.mem_filter.1 hb).2]
    exact decide_eq_true (String.le_refl _)
  have hsub : (rs.filter (·.name == name)).Sublist
      (rs.mergeSort fun a b => a.name ≤ b.name) :=
    List.sublist_mergeSort (by simpa using fun a b c => String.le_trans)
      (by simpa using fun a b => String.le_total _ _) hascending List.filter_sublist
  have hfilter := hsub.filter (·.name == name)
  simp only [List.filter_filter, Bool.and_self] at hfilter
  exact (hfilter.eq_of_length ((List.mergeSort_perm rs _).filter _).length_eq.symm).symm

theorem find?_mergeSort (rs : List Reference) (name : String) :
    (rs.mergeSort fun a b => a.name ≤ b.name).find? (·.name == name) =
      rs.find? (·.name == name) := by
  rw [← List.head?_filter, filter_mergeSort, List.head?_filter]

theorem find?_destutter' (r : Reference) (rs : List Reference) (name : String) :
    (rs.destutter' (fun a b => a.name ≠ b.name) r).find? (·.name == name) =
      (r :: rs).find? (·.name == name) := by
  induction rs generalizing r with
  | nil => rfl
  | cons x rs ih =>
    rw [List.destutter'_cons]
    split
    · rw [List.find?_cons, List.find?_cons, ih]
    · rename_i hsame
      rw [ne_eq, not_not] at hsame
      rw [ih, List.find?_cons, List.find?_cons, List.find?_cons, hsame]
      cases x.name == name <;> rfl

theorem ascending_destutter' {r : Reference} {rs : List Reference}
    (h : (r :: rs).Pairwise fun a b => a.name ≤ b.name) :
    Ascending (rs.destutter' (fun a b => a.name ≠ b.name) r) := by
  induction rs generalizing r with
  | nil => exact List.pairwise_singleton _ _
  | cons x rs ih =>
    obtain ⟨hr, hrs⟩ := List.pairwise_cons.1 h
    rw [List.destutter'_cons]
    split
    · rename_i hne
      have hrx : r.name < x.name := Std.lt_of_le_of_ne (hr x List.mem_cons_self) hne
      refine List.pairwise_cons.2 ⟨fun y hy => ?_, ih hrs⟩
      rcases List.mem_cons.1 ((List.destutter'_sublist _ _ x).subset hy) with rfl | hy
      · exact hrx
      · exact Std.lt_of_lt_of_le hrx ((List.pairwise_cons.1 hrs).1 y hy)
    · exact ih (List.pairwise_cons.2
        ⟨fun y hy => hr y (List.mem_cons_of_mem x hy), (List.pairwise_cons.1 hrs).2⟩)

theorem pairwise_mergeSort_names (rs : List Reference) :
    (rs.mergeSort fun a b => a.name ≤ b.name).Pairwise fun a b => a.name ≤ b.name :=
  (List.pairwise_mergeSort (by simpa using fun a b c => String.le_trans)
    (by simpa using fun a b => String.le_total _ _) rs).imp of_decide_eq_true

theorem ascending_sortedFirsts (rs : List Reference) : Ascending (sortedFirsts rs) := by
  unfold sortedFirsts
  have hsorted := pairwise_mergeSort_names rs
  cases hs : rs.mergeSort fun a b => a.name ≤ b.name with
  | nil => exact .nil
  | cons s ss =>
    rw [hs] at hsorted
    rw [List.destutter_cons']
    exact ascending_destutter' hsorted

theorem find?_sortedFirsts (rs : List Reference) (name : String) :
    (sortedFirsts rs).find? (·.name == name) = rs.find? (·.name == name) := by
  rw [← find?_mergeSort rs name, sortedFirsts]
  cases rs.mergeSort fun a b => a.name ≤ b.name with
  | nil => rfl
  | cons s ss => exact find?_destutter' s ss name

theorem references_ofList (rs : List Reference) : (ofList rs).references = sortedFirsts rs :=
  eq_of_find?_eq (names_pairwise_ofList rs) (ascending_sortedFirsts rs) fun name =>
    (get?_ofList rs name).trans (find?_sortedFirsts rs name).symm

/-! ## Searching -/

/-- The middle reference decides in which half the search goes on. -/
def bisect (name : String) (rs : List Reference) : Option Reference :=
  match h : rs.drop (rs.length / 2) with
  | [] => none
  | r :: above =>
    if r.name = name then some r
    else if r.name < name then bisect name above
    else bisect name (rs.take (rs.length / 2))
termination_by rs.length
decreasing_by
  · have := congrArg List.length h
    simp at this
    omega
  · have := congrArg List.length h
    simp at this ⊢
    omega

theorem find?_eq_none_of_ne {rs : List Reference} {name : String}
    (h : ∀ r ∈ rs, r.name ≠ name) : rs.find? (·.name == name) = none :=
  List.find?_eq_none.2 fun r hr => by simpa using h r hr

/-- A half that is left out does not have the name, because the names ascend. -/
theorem find?_halves {below above : List Reference} {r : Reference}
    (h : Ascending (below ++ r :: above)) (name : String) :
    (below ++ r :: above).find? (·.name == name) =
      if r.name = name then some r
      else if r.name < name then above.find? (·.name == name)
      else below.find? (·.name == name) := by
  obtain ⟨-, hright, hbelow⟩ := List.pairwise_append.1 h
  rcases Decidable.em (name < r.name) with hlt | hge
  · have hnone : above.find? (·.name == name) = none :=
      find?_eq_none_of_ne fun x hx =>
        (Std.ne_of_lt (Std.lt_trans hlt ((List.pairwise_cons.1 hright).1 x hx))).symm
    have hne : r.name ≠ name := (Std.ne_of_lt hlt).symm
    simp [hne, hnone, String.lt_asymm hlt]
  · have hnone : below.find? (·.name == name) = none :=
      find?_eq_none_of_ne fun x hx =>
        Std.ne_of_lt (Std.lt_of_lt_of_le (hbelow x hx r List.mem_cons_self) (String.not_lt.1 hge))
    by_cases hname : r.name = name
    · simp [hname, hnone]
    · have hlt : r.name < name := Std.lt_of_le_of_ne (String.not_lt.1 hge) hname
      simp [hname, hnone, hlt]

theorem eq_take_append_of_drop {rs above : List Reference} {r : Reference}
    (h : rs.drop (rs.length / 2) = r :: above) : rs = rs.take (rs.length / 2) ++ r :: above := by
  rw [← h, List.take_append_drop]

theorem bisect_eq_find? {rs : List Reference} (h : Ascending rs) (name : String) :
    bisect name rs = rs.find? (·.name == name) := by
  fun_induction bisect name rs with
  | case1 rs hmiddle =>
    have hlength := congrArg List.length hmiddle
    rw [List.length_drop, List.length_nil] at hlength
    rw [List.length_eq_zero_iff.1 (by omega : rs.length = 0)]
    rfl
  | case2 rs r above hmiddle hname =>
    have hrs := eq_take_append_of_drop hmiddle
    rw [hrs, find?_halves (hrs ▸ h), if_pos hname]
  | case3 rs r above hmiddle hname hlt ih =>
    have hrs := eq_take_append_of_drop hmiddle
    have hright := (List.pairwise_append.1 (hrs ▸ h)).2.1
    rw [ih (List.pairwise_cons.1 hright).2, hrs, find?_halves (hrs ▸ h), if_neg hname, if_pos hlt]
  | case4 rs r above hmiddle hname hlt ih =>
    have hrs := eq_take_append_of_drop hmiddle
    have hleft := (List.pairwise_append.1 (hrs ▸ h)).1
    rw [ih hleft]
    conv_rhs => rw [hrs, find?_halves (hrs ▸ h), if_neg hname, if_neg hlt]

/-! ## Permutations -/

/-- References of one name come in the same order as before. -/
def KeepsOrder (rs : List Reference) (σ : Equiv.Perm (Fin rs.length)) : Prop :=
  ∀ i j, i < j → rs[σ i].name = rs[σ j].name → σ i < σ j

/-- The first reference of a name comes from the first one: no other can come before it. -/
theorem find?_ofFn_of_keepsOrder {rs : List Reference} {σ : Equiv.Perm (Fin rs.length)}
    (h : KeepsOrder rs σ) (name : String) :
    (List.ofFn fun i => rs[σ i]).find? (·.name == name) = rs.find? (·.name == name) := by
  cases hfind : (List.ofFn fun i => rs[σ i]).find? (·.name == name) with
  | none =>
    refine (find?_eq_none_of_ne fun r hr => ?_).symm
    obtain ⟨j, hj, rfl⟩ := List.mem_iff_getElem.1 hr
    have hmem : rs[j] ∈ List.ofFn fun i => rs[σ i] :=
      List.mem_ofFn.2 ⟨σ.symm ⟨j, hj⟩, by simp⟩
    simpa using List.find?_eq_none.1 hfind _ hmem
  | some r =>
    obtain ⟨hname, i, hi, rfl, hfirst⟩ := List.find?_eq_some_iff_getElem.1 hfind
    rw [List.length_ofFn] at hi
    simp only [List.getElem_ofFn] at hname hfirst ⊢
    rw [eq_comm, List.find?_eq_some_iff_getElem]
    refine ⟨hname, σ ⟨i, hi⟩, (σ ⟨i, hi⟩).isLt, rfl, fun j hj => ?_⟩
    have hjlt : j < rs.length := Nat.lt_trans hj (σ ⟨i, hi⟩).isLt
    obtain ⟨k, hk⟩ := σ.surjective ⟨j, hjlt⟩
    rw [Bool.not_eq_true', beq_eq_false_iff_ne]
    intro hsame
    have hksame : rs[σ k].name = name := by
      simp only [hk]
      exact hsame
    rcases Nat.lt_trichotomy k i with hki | rfl | hki
    · exact absurd hksame (by simpa using hfirst k hki)
    · rw [hk] at hj
      exact Nat.lt_irrefl j hj
    · have hsigma : σ ⟨i, hi⟩ < σ k :=
        h ⟨i, hi⟩ k hki ((beq_iff_eq.1 hname).trans hksame.symm)
      rw [hk] at hsigma
      exact Nat.lt_asymm hj hsigma

/-! ## Snapshots -/

/--
A snapshot finds the first reference of each name, its names ascend in the order of their bytes,
and only the order of references of one name makes a difference. It is the same as sorting the
references, dropping all but the first of a name and searching by halves.
-/
theorem ofList_first_wins (rs : List Reference) :
    (∀ name, (ofList rs).get? name = rs.find? (·.name == name)) ∧
      ((ofList rs).names.map Text.bytes).Pairwise (· < ·) ∧
      (∀ σ, KeepsOrder rs σ → ofList (List.ofFn fun i => rs[σ i]) = ofList rs) ∧
      (ofList rs).references = sortedFirsts rs ∧
      ∀ name, bisect name (sortedFirsts rs) = rs.find? (·.name == name) := by
  refine ⟨get?_ofList rs, ?_, fun σ hσ => ?_, references_ofList rs, fun name => ?_⟩
  · rw [names, List.map_map, List.pairwise_map]
    exact (names_pairwise_ofList rs).imp fun hab => Text.bytes_lt_iff.2 hab
  · refine congrArg Snapshot.mk (eq_of_find?_eq (names_pairwise_ofList _)
      (names_pairwise_ofList rs) fun name => ?_)
    exact (get?_ofList _ name).trans
      ((find?_ofFn_of_keepsOrder hσ name).trans (get?_ofList rs name).symm)
  · rw [bisect_eq_find? (ascending_sortedFirsts rs), find?_sortedFirsts]

/-! ### A name that comes twice -/

def core (origin : Origin) : Reference := ⟨⟨"Core", .release, [], [], []⟩, origin⟩

def coreTwice : List Reference :=
  [⟨⟨"Util", .release, [], [], []⟩, .memory⟩, core .memory, core (.file "core.mlnk")]

/-- The first reference to `Core` moves to the front, still before the second one. -/
theorem ofList_first_wins_core :
    KeepsOrder coreTwice (Equiv.swap ⟨0, by decide⟩ ⟨1, by decide⟩) ∧
      ofList (List.ofFn fun i => coreTwice[Equiv.swap ⟨0, by decide⟩ ⟨1, by decide⟩ i]) =
        ofList coreTwice ∧
      (ofList coreTwice).get? "Core" = some (core .memory) ∧
      (ofList coreTwice).get? "Mod" = none := by
  have hkeeps : KeepsOrder coreTwice (Equiv.swap ⟨0, by decide⟩ ⟨1, by decide⟩) := by
    unfold KeepsOrder
    decide +kernel
  obtain ⟨hget, -, hperm, -⟩ := ofList_first_wins coreTwice
  exact ⟨hkeeps, hperm _ hkeeps, (hget "Core").trans (by decide), (hget "Mod").trans (by decide)⟩

end Snapshot
end Linkage
