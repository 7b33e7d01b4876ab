import Mathlib.Data.List.Basic
import Linkage.Snapshot

/-!
# Linkage.Proofs.Snapshot

What a snapshot has of the references it is made of.

* `mem_of_mem_ofList` — a snapshot has none but these.
* `get?_ofList` — a name gives the first reference of that name.
* `perm_ofList`, `ofList_eq_of_perm` — if no two of them have one name, all are there, and the
  order in which they come does not matter.
-/

namespace Linkage
namespace Snapshot

/-- No two references have one name. -/
def Distinct (rs : List Reference) : Prop := rs.Pairwise fun a b => a.name ≠ b.name

theorem mem_of_mem_ofList {r : Reference} {rs : List Reference}
    (h : r ∈ (ofList rs).references) : r ∈ rs := by
  suffices hs : ∀ s : Snapshot, r ∈ (rs.foldl insert s).references → r ∈ s.references ∨ r ∈ rs by
    rcases hs empty h with h | h
    · cases h
    · exact h
  clear h
  induction rs with
  | nil => exact fun s h => .inl h
  | cons x rs ih =>
    intro s h
    rcases ih _ h with h | h
    · rcases mem_insertInto h with rfl | h
      · exact .inr List.mem_cons_self
      · exact .inl h
    · exact .inr (List.mem_cons_of_mem _ h)

/-! ## Look-up -/

theorem find?_insertInto {xs : List Reference} (hs : xs.Pairwise fun a b => a.name < b.name)
    (r : Reference) (name : String) :
    (insertInto r xs).find? (·.name == name) =
      (xs.find? (·.name == name)).or ([r].find? (·.name == name)) := by
  induction xs with
  | nil => simp [insertInto]
  | cons x xs ih =>
    obtain ⟨hx, hxs⟩ := List.pairwise_cons.1 hs
    simp only [insertInto]
    split
    · rename_i hlt
      by_cases hr : r.name = name
      · -- All names from `x` on are above that of `r`.
        have hnone : (x :: xs).find? (·.name == name) = none := by
          refine List.find?_eq_none.2 fun y hy hname => ?_
          have hlt' : r.name < y.name := by
            rcases List.mem_cons.1 hy with rfl | hy
            · exact hlt
            · exact String.lt_trans hlt (hx y hy)
          rw [beq_iff_eq.1 hname, hr] at hlt'
          exact String.lt_irrefl _ hlt'
        simp [hnone, hr]
      · simp [hr]
    · split
      · rename_i hname
        by_cases hr : r.name = name
        · simp [← hname, hr]
        · simp [hr]
      · by_cases hxn : x.name = name
        · simp [hxn]
        · simp only [List.find?_cons, beq_eq_false_iff_ne.2 hxn, ih hxs]

theorem get?_ofList (rs : List Reference) (name : String) :
    (ofList rs).get? name = rs.find? (·.name == name) := by
  suffices h : ∀ s : Snapshot, s.references.Pairwise (fun a b => a.name < b.name) →
      (rs.foldl insert s).get? name = (s.get? name).or (rs.find? (·.name == name)) from
    (h empty .nil).trans Option.none_or
  induction rs with
  | nil => intro s _; simp
  | cons r rs ih =>
    intro s hs
    have hinsert : (s.insert r).get? name = (s.get? name).or ([r].find? (·.name == name)) :=
      find?_insertInto hs r name
    rw [List.foldl_cons, ih (s.insert r) (pairwise_insertInto hs), hinsert, Option.or_assoc]
    by_cases hr : r.name = name
    · simp [hr]
    · simp [hr]

/-! ## Order -/

theorem perm_insertInto {r : Reference} {xs : List Reference} (h : ∀ x ∈ xs, r.name ≠ x.name) :
    (insertInto r xs).Perm (r :: xs) := by
  induction xs with
  | nil => exact .refl _
  | cons x xs ih =>
    simp only [insertInto, if_neg (h x List.mem_cons_self)]
    split
    · exact .refl _
    · exact ((ih fun y hy => h y (List.mem_cons_of_mem x hy)).cons x).trans (.swap r x xs)

theorem perm_ofList {rs : List Reference} (h : Distinct rs) : (ofList rs).references.Perm rs := by
  suffices hs : ∀ s : Snapshot, (∀ x ∈ s.references, ∀ r ∈ rs, r.name ≠ x.name) →
      (rs.foldl insert s).references.Perm (rs ++ s.references) by
    have hempty := hs empty fun x hx => nomatch hx
    rwa [show empty.references = [] from rfl, List.append_nil] at hempty
  induction rs with
  | nil => intro s _; exact .refl _
  | cons r rs ih =>
    obtain ⟨hr, hrs⟩ := List.pairwise_cons.1 h
    intro s hs
    have hinsert : (s.insert r).references.Perm (r :: s.references) :=
      perm_insertInto fun x hx => hs x hx r List.mem_cons_self
    have hnew : ∀ x ∈ (s.insert r).references, ∀ q ∈ rs, q.name ≠ x.name := by
      intro x hx q hq
      rcases List.mem_cons.1 (hinsert.mem_iff.1 hx) with rfl | hx
      · exact (hr q hq).symm
      · exact hs x hx q (List.mem_cons_of_mem r hq)
    calc (rs.foldl insert (s.insert r)).references
        |>.Perm (rs ++ (s.insert r).references) := ih hrs _ hnew
      _ |>.Perm (rs ++ r :: s.references) := hinsert.append_left rs
      _ |>.Perm (r :: rs ++ s.references) := List.perm_middle

/-- The names ascend strictly, so only one list of references has these. -/
theorem ofList_eq_of_perm {rs rs' : List Reference} (h : Distinct rs) (hp : rs'.Perm rs) :
    ofList rs' = ofList rs := by
  have h' : Distinct rs' := (hp.pairwise_iff fun hab => hab.symm).2 h
  have hperm : (ofList rs').references.Perm (ofList rs).references :=
    ((perm_ofList h').trans hp).trans (perm_ofList h).symm
  have hrefs : (ofList rs').references = (ofList rs).references :=
    hperm.eq_of_pairwise (fun a b _ _ hab hba => absurd (String.lt_trans hab hba)
      (String.lt_irrefl _)) (names_pairwise_ofList rs') (names_pairwise_ofList rs)
  exact congrArg Snapshot.mk hrefs

end Snapshot
end Linkage
