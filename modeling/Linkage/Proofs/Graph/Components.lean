import Linkage.Proofs.Graph
import Mathlib.Data.List.Nodup
import Mathlib.Data.List.Sort

/-!
# Linkage.Proofs.Graph.Components

The cycles of a graph among its strongly connected components.

* `Components g components` — these are the strongly connected components, in any order.
* `Groups.unique` — a relation has one list of groups.
* `groups_cyclesAmong` — what is left of the components are the groups, so it is the same however
  the components come, and the same as `cycles`.
* `cyclesAmong_exact` — all of it, and that the order of the edges makes no difference.
-/

namespace Linkage
namespace Graph

open Relation

variable {g : Graph}

/-! ## Groups -/

namespace Groups

variable {r : Nat → Nat → Prop} {xs ys : List (List Nat)}

theorem exists_head (h : Groups r xs) : ∀ c ∈ xs, ∃ u, c.head? = some u := by
  obtain ⟨firsts, hfirsts, -⟩ := h.ordered
  intro c hc
  have hmem := List.mem_map_of_mem (f := List.head?) hc
  rw [hfirsts] at hmem
  obtain ⟨u, -, hu⟩ := List.mem_map.1 hmem
  exact ⟨u, hu.symm⟩

theorem pairwise_headD (h : Groups r xs) : xs.Pairwise fun c d => c.headD 0 < d.headD 0 := by
  obtain ⟨firsts, hfirsts, hasc⟩ := h.ordered
  have hsome : (firsts.map some).Pairwise fun a b => a.getD 0 < b.getD 0 :=
    List.pairwise_map.2 hasc
  rw [← hfirsts, List.pairwise_map] at hsome
  simpa only [List.headD_eq_head?_getD] using hsome

/-- A group is determined by any of its members. -/
theorem mem_of_mem (h : Groups r xs) (h' : Groups r ys) {c : List Nat} (hc : c ∈ xs) : c ∈ ys := by
  obtain ⟨u, hu⟩ := h.exists_head c hc
  have hmem := List.mem_of_head? hu
  obtain ⟨d, hd, hud⟩ := (h'.covers u).2 ((h.covers u).1 ⟨c, hc, hmem⟩)
  have hsame : c = d := (h.ascending c hc).eq_of_mem_iff (h'.ascending d hd) fun v =>
    (h.linked c hc u hmem v).trans (h'.linked d hd u hud v).symm
  rwa [hsame]

theorem unique (h : Groups r xs) (h' : Groups r ys) : xs = ys := by
  have : Std.Irrefl fun c d : List Nat => c.headD 0 < d.headD 0 := ⟨fun _ => Nat.lt_irrefl _⟩
  have : Std.Antisymm fun c d : List Nat => c.headD 0 < d.headD 0 :=
    ⟨fun _ _ hcd hdc => absurd hcd (Nat.lt_asymm hdc)⟩
  exact h.pairwise_headD.eq_of_mem_iff h'.pairwise_headD fun _ => ⟨h.mem_of_mem h', h'.mem_of_mem h⟩

end Groups

/-! ## Components -/

/-- The strongly connected components, in any order and with their members in any order. -/
structure Components (g : Graph) (components : List (List Nat)) : Prop where
  partition : components.flatten.Perm (List.range g.size)
  nonempty : [] ∉ components
  linked : ∀ c ∈ components, ∀ u ∈ c, ∀ v, v ∈ c ↔ v = u ∨ g.Linked u v

/-- The bits of `closure` tell whether these are the components. -/
theorem components_of_closure (h : g.InRange) {components : List (List Nat)}
    (hpartition : components.flatten.Perm (List.range g.size)) (hnonempty : [] ∉ components)
    (hlinked : ∀ c ∈ components, ∀ u ∈ c, ∀ v < g.size, v ∈ c ↔
      v = u ∨ ((g.closure.getD u 0).testBit v && (g.closure.getD v 0).testBit u) = true) :
    g.Components components := by
  have hlt {c : List Nat} (hc : c ∈ components) {v : Nat} (hv : v ∈ c) : v < g.size :=
    List.mem_range.1 (hpartition.mem_iff.1 (List.mem_flatten.2 ⟨c, hc, hv⟩))
  refine ⟨hpartition, hnonempty, fun c hc u hu v => ?_⟩
  by_cases hv : v < g.size
  · rw [hlinked c hc u hu v hv, linked_iff h]
  · refine iff_of_false (fun hmem => hv (hlt hc hmem)) ?_
    rintro (rfl | hlink)
    · exact hv (hlt hc hu)
    · exact hv (hlink.1.target_lt h)

/-- With its members in order. -/
def sorted (c : List Nat) : List Nat := c.mergeSort fun u v => u ≤ v

theorem perm_sorted (c : List Nat) : (sorted c).Perm c := List.mergeSort_perm c _

theorem pairwise_sorted {c : List Nat} (h : c.Nodup) : (sorted c).Pairwise (· < ·) := by
  have hle : (sorted c).Pairwise (· ≤ ·) := List.pairwise_mergeSort' (· ≤ ·) c
  have hne := (perm_sorted c).nodup_iff.2 h
  exact hle.imp₂ (fun _ _ hle hne => Nat.lt_of_le_of_ne hle hne) hne

theorem mem_cyclesAmong {components : List (List Nat)} {c : List Nat} :
    c ∈ g.cyclesAmong components ↔ ∃ d ∈ components, sorted d = c ∧ g.isCycle c = true := by
  rw [cyclesAmong, List.mem_mergeSort, List.mem_filter, List.mem_map]
  exact ⟨fun ⟨⟨d, hd, hc⟩, hcycle⟩ => ⟨d, hd, hc, hcycle⟩,
    fun ⟨d, hd, hc, hcycle⟩ => ⟨⟨d, hd, hc⟩, hcycle⟩⟩

theorem hasLoop_iff {u : Nat} : g.hasLoop u = true ↔ g.Edge u u := List.contains_iff_mem

/-- A path back to a node that is alone in its component is a loop. -/
theorem edge_of_alone {u : Nat} (h : ∀ v, g.Linked u v → v = u) (hu : g.Reaches u u) :
    g.Edge u u := by
  obtain ⟨v, he, hr⟩ := TransGen.head'_iff.1 hu
  rcases reflTransGen_iff_eq_or_transGen.1 hr with rfl | hr
  · exact he
  · obtain rfl := h v ⟨.single he, hr⟩
    exact he

/-- All members of a class lie on a cycle or none of them does. -/
theorem isCycle_iff {c : List Nat} (hnodup : c.Nodup)
    (hlinked : ∀ u ∈ c, ∀ v, v ∈ c ↔ v = u ∨ g.Linked u v) {u : Nat} (hu : u ∈ c) :
    g.isCycle c = true ↔ g.Reaches u u := by
  match c with
  | [] => exact absurd hu List.not_mem_nil
  | [w] =>
    obtain rfl := List.mem_singleton.1 hu
    have halone (v : Nat) (hv : g.Linked u v) : v = u :=
      List.mem_singleton.1 ((hlinked u hu v).2 (.inr hv))
    simp only [isCycle, List.length_singleton, Nat.lt_irrefl, decide_false, Bool.false_or,
      List.head?_cons, Option.any_some, hasLoop_iff]
    exact ⟨.single, edge_of_alone halone⟩
  | w :: x :: rest =>
    have htwo : g.isCycle (w :: x :: rest) = true := by simp [isCycle]
    refine iff_of_true htwo ?_
    -- One of the first two members is not `u`.
    obtain ⟨v, hv, hne⟩ : ∃ v ∈ w :: x :: rest, v ≠ u := by
      by_cases hw : w = u
      · subst hw
        refine ⟨x, List.mem_cons_of_mem w List.mem_cons_self, ?_⟩
        rintro rfl
        exact (List.nodup_cons.1 hnodup).1 List.mem_cons_self
      · exact ⟨w, List.mem_cons_self, hw⟩
    have hlink := ((hlinked u hu v).1 hv).resolve_left hne
    exact hlink.1.trans hlink.2

namespace Components

variable {components : List (List Nat)} {c : List Nat} {u : Nat}

theorem nodup (h : g.Components components) :
    (∀ c ∈ components, c.Nodup) ∧ components.Pairwise List.Disjoint :=
  List.nodup_flatten.1 (h.partition.nodup_iff.2 List.nodup_range)

theorem isCycle_sorted (h : g.Components components) (hc : c ∈ components) (hu : u ∈ c) :
    g.isCycle (sorted c) = true ↔ g.Reaches u u := by
  have hmem (v : Nat) : v ∈ sorted c ↔ v ∈ c := (perm_sorted c).mem_iff
  refine isCycle_iff ((perm_sorted c).nodup_iff.2 (h.nodup.1 c hc)) (fun w hw v => ?_)
    ((hmem u).2 hu)
  rw [hmem]
  exact h.linked c hc w ((hmem w).1 hw) v

theorem exists_mem (h : g.Components components) (hrange : g.InRange) (hu : g.Reaches u u) :
    ∃ c ∈ components, u ∈ c :=
  List.mem_flatten.1 (h.partition.mem_iff.2 (List.mem_range.2 (hu.source_lt hrange)))

end Components

theorem disjoint_cyclesAmong {components : List (List Nat)} (h : g.Components components) :
    (g.cyclesAmong components).Pairwise fun c d => ∀ u ∈ c, u ∉ d := by
  have hsorted : (components.map sorted).Pairwise fun c d => ∀ u ∈ c, u ∉ d :=
    List.pairwise_map.2 (h.nodup.2.imp fun hcd u hu hu' =>
      hcd ((perm_sorted _).mem_iff.1 hu) ((perm_sorted _).mem_iff.1 hu'))
  exact (List.mergeSort_perm _ _).symm.pairwise (hsorted.filter _) fun hcd u hu hu' => hcd u hu' hu

theorem exists_head_of_mem_cyclesAmong {components : List (List Nat)} {c : List Nat}
    (h : g.Components components) (hc : c ∈ g.cyclesAmong components) :
    c.head? = some (c.headD 0) := by
  obtain ⟨d, hd, rfl, -⟩ := mem_cyclesAmong.1 hc
  cases hs : sorted d with
  | nil =>
    have hnil : d = [] := List.Perm.eq_nil (hs ▸ (perm_sorted d).symm)
    exact absurd (hnil ▸ hd) h.nonempty
  | cons u rest => rfl

/-- The first members ascend, since those of different groups differ. -/
theorem pairwise_cyclesAmong {components : List (List Nat)} (h : g.Components components) :
    (g.cyclesAmong components).Pairwise fun c d => c.headD 0 < d.headD 0 := by
  have hsort : (g.cyclesAmong components).Pairwise
      fun c d => decide (c.headD 0 ≤ d.headD 0) = true := by
    refine List.pairwise_mergeSort (fun c d e hcd hde => ?_) (fun c d => ?_) _
    · exact decide_eq_true (Nat.le_trans (of_decide_eq_true hcd) (of_decide_eq_true hde))
    · rw [Bool.or_eq_true, decide_eq_true_eq, decide_eq_true_eq]
      exact Nat.le_total _ _
  refine (hsort.and (disjoint_cyclesAmong h)).imp_of_mem fun {c d} hc hd hcd => ?_
  have hfirst := List.mem_of_head? (exists_head_of_mem_cyclesAmong h hc)
  have hfirst' := List.mem_of_head? (exists_head_of_mem_cyclesAmong h hd)
  refine Nat.lt_of_le_of_ne (of_decide_eq_true hcd.1) fun heq => ?_
  rw [← heq] at hfirst'
  exact hcd.2 _ hfirst hfirst'

theorem groups_cyclesAmong (hrange : g.InRange) {components : List (List Nat)}
    (h : g.Components components) : Groups g.Edge (g.cyclesAmong components) := by
  have hmem {u : Nat} {d : List Nat} : u ∈ sorted d ↔ u ∈ d := (perm_sorted d).mem_iff
  constructor
  case covers =>
    intro u
    constructor
    · rintro ⟨c, hc, hu⟩
      obtain ⟨d, hd, rfl, hcycle⟩ := mem_cyclesAmong.1 hc
      exact (h.isCycle_sorted hd (hmem.1 hu)).1 hcycle
    · intro hu
      obtain ⟨d, hd, hud⟩ := h.exists_mem hrange hu
      exact ⟨sorted d, mem_cyclesAmong.2 ⟨d, hd, rfl, (h.isCycle_sorted hd hud).2 hu⟩, hmem.2 hud⟩
  case linked =>
    intro c hc u hu v
    obtain ⟨d, hd, rfl, hcycle⟩ := mem_cyclesAmong.1 hc
    have hself := (h.isCycle_sorted hd (hmem.1 hu)).1 hcycle
    rw [hmem, h.linked d hd u (hmem.1 hu) v]
    refine or_iff_right_of_imp ?_
    rintro rfl
    exact ⟨hself, hself⟩
  case disjoint => exact disjoint_cyclesAmong h
  case ascending =>
    intro c hc
    obtain ⟨d, hd, rfl, -⟩ := mem_cyclesAmong.1 hc
    exact pairwise_sorted (h.nodup.1 d hd)
  case ordered =>
    refine ⟨(g.cyclesAmong components).map (·.headD 0), ?_,
      List.pairwise_map.2 (pairwise_cyclesAmong h)⟩
    rw [List.map_map]
    exact List.map_congr_left fun c hc => exists_head_of_mem_cyclesAmong h hc

/--
A node is in a group exactly if a path leads from it to itself, and two nodes of groups are in one
group exactly if each reaches the other. Groups have no members in common, members ascend, and so do
first members. Neither the order of the components nor the order and repetition of the edges matter.
-/
theorem cyclesAmong_exact (h : g.InRange) {components : List (List Nat)}
    (hc : g.Components components) :
    (∀ u, (∃ c ∈ g.cyclesAmong components, u ∈ c) ↔ g.Reaches u u) ∧
      (∀ u v, (∃ c ∈ g.cyclesAmong components, u ∈ c ∧ v ∈ c) ↔
        (∃ c ∈ g.cyclesAmong components, u ∈ c) ∧ (∃ c ∈ g.cyclesAmong components, v ∈ c) ∧
          g.Reaches u v ∧ g.Reaches v u) ∧
      (g.cyclesAmong components).Pairwise List.Disjoint ∧
      (∀ c ∈ g.cyclesAmong components, c ≠ [] ∧ c.Pairwise (· < ·)) ∧
      ((g.cyclesAmong components).filterMap List.head?).Pairwise (· < ·) ∧
      (∀ edges components', (∀ e, e ∈ edges ↔ e ∈ g.edges) →
        Components ⟨g.size, edges⟩ components' →
          cyclesAmong ⟨g.size, edges⟩ components' = g.cyclesAmong components) ∧
      g.cyclesAmong components = g.cycles := by
  have hgroups := groups_cyclesAmong h hc
  refine ⟨hgroups.covers, fun u v => ?_, ?_, fun c hmem => ?_, ?_, ?_, ?_⟩
  · constructor
    · rintro ⟨c, hmem, hu, hv⟩
      exact ⟨⟨c, hmem, hu⟩, ⟨c, hmem, hv⟩, (hgroups.linked c hmem u hu v).1 hv⟩
    · rintro ⟨⟨c, hmem, hu⟩, -, hlinked⟩
      exact ⟨c, hmem, hu, (hgroups.linked c hmem u hu v).2 hlinked⟩
  · exact hgroups.disjoint.imp fun hcd u hu hu' => hcd u hu hu'
  · obtain ⟨u, hu⟩ := hgroups.exists_head c hmem
    refine ⟨?_, hgroups.ascending c hmem⟩
    rintro rfl
    cases hu
  · obtain ⟨firsts, hfirsts, hasc⟩ := hgroups.ordered
    have hheads : (g.cyclesAmong components).filterMap List.head? = firsts := by
      rw [← Function.id_comp List.head?, ← List.filterMap_map, hfirsts, List.filterMap_map]
      exact List.filterMap_some
    rwa [hheads]
  · intro edges components' hedges hc'
    have hedge : (⟨g.size, edges⟩ : Graph).Edge = g.Edge := by
      funext u v
      exact propext (hedges (u, v))
    have hrange : (⟨g.size, edges⟩ : Graph).InRange :=
      ⟨fun u v he => h.source u v (hedge ▸ he), fun u v he => h.target u v (hedge ▸ he)⟩
    have hgroups' := groups_cyclesAmong hrange hc'
    rw [hedge] at hgroups'
    exact hgroups'.unique hgroups
  · exact hgroups.unique (groups_cycles h)

/-- A cycle of two nodes that leads to one of three, a loop, and a node that is on no cycle. -/
def rings : Graph := ⟨7, [(4, 6), (6, 5), (5, 4), (0, 4), (2, 0), (0, 2), (1, 1), (3, 1), (4, 6)]⟩

theorem cyclesAmong_exact_rings :
    rings.Components [[4, 6, 5], [1], [3], [0, 2]] ∧
      rings.cyclesAmong [[4, 6, 5], [1], [3], [0, 2]] = [[0, 2], [1], [4, 5, 6]] ∧
      rings.Reaches 5 6 ∧ rings.Reaches 1 1 ∧ ¬ rings.Reaches 3 3 := by
  have hrange : rings.InRange := by
    constructor <;> intro u v he <;> simp [Edge, rings] at he <;> simp only [rings] <;> omega
  have hcomponents : rings.Components [[4, 6, 5], [1], [3], [0, 2]] :=
    components_of_closure hrange (by decide +kernel) (by decide) (by decide +kernel)
  obtain ⟨hcovers, hsame, -, -, -, -, heq⟩ := cyclesAmong_exact hrange hcomponents
  have hcycles : rings.cyclesAmong [[4, 6, 5], [1], [3], [0, 2]] = [[0, 2], [1], [4, 5, 6]] :=
    heq.trans (by decide +kernel)
  rw [hcycles] at hcovers hsame
  refine ⟨hcomponents, hcycles, ?_, ?_, ?_⟩
  · exact ((hsame 5 6).1 ⟨[4, 5, 6], by decide, by decide, by decide⟩).2.2.1
  · exact (hcovers 1).1 ⟨[1], by decide, by decide⟩
  · rw [← hcovers 3]
    decide

end Graph
end Linkage
