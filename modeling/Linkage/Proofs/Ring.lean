import Linkage.Proofs.Graph
import Mathlib.Data.List.Chain
import Mathlib.Logic.Relator

/-!
# Linkage.Proofs.Ring

Graphs in which every node points at one other at most. There a cycle is a ring: it can be walked
in one way only.

* `Route` — the way from a node to a goal. There is only one (`Route.unique`), no node is on it
  twice (`Route.nodup`), and there is one as soon as the goal can be reached (`exists_route`).
* `Ring` — a cycle as the list of its nodes in the order of the walk, from the least of them on.
* `exists_rings` — the groups of `cycles` are the rings, and there is no ring besides.
-/

namespace Linkage
namespace Graph

variable {r : Nat → Nat → Prop} {goal u v w : Nat} {way : List Nat}

/-! ## Ways to a goal -/

/-- What is passed from `u` up to the goal, each node pointing at the next one. -/
structure Route (r : Nat → Nat → Prop) (goal u : Nat) (way : List Nat) : Prop where
  chain : (u :: (way ++ [goal])).IsChain r
  fresh : goal ∉ way

theorem route_nil : Route r goal u [] ↔ r u goal := by
  refine ⟨fun h => List.isChain_pair.1 h.chain, fun h => ⟨List.isChain_pair.2 h, ?_⟩⟩
  exact List.not_mem_nil

theorem route_cons : Route r goal u (v :: way) ↔ r u v ∧ v ≠ goal ∧ Route r goal v way := by
  constructor
  · rintro ⟨hchain, hfresh⟩
    obtain ⟨hne, hfresh⟩ := not_or.1 (List.mem_cons.not.1 hfresh)
    obtain ⟨huv, hchain⟩ := List.isChain_cons_cons.1 hchain
    exact ⟨huv, Ne.symm hne, hchain, hfresh⟩
  · rintro ⟨huv, hne, hchain, hfresh⟩
    exact ⟨List.isChain_cons_cons.2 ⟨huv, hchain⟩, List.mem_cons.not.2 (not_or.2 ⟨Ne.symm hne, hfresh⟩)⟩

/-- The way ends at the goal the first time it is met. -/
theorem exists_route (h : Relation.TransGen r u goal) : ∃ way, Route r goal u way := by
  induction h using Relation.TransGen.head_induction_on with
  | single huv => exact ⟨[], route_nil.2 huv⟩
  | @head u v huv _ ih =>
    by_cases hv : v = goal
    · exact ⟨[], route_nil.2 (hv ▸ huv)⟩
    · obtain ⟨way, hway⟩ := ih
      exact ⟨v :: way, route_cons.2 ⟨huv, hv, hway⟩⟩

namespace Route

theorem reaches_goal (h : Route r goal u way) : Relation.TransGen r u goal := by
  induction way generalizing u with
  | nil => exact .single (route_nil.1 h)
  | cons v way ih =>
    obtain ⟨huv, -, hway⟩ := route_cons.1 h
    exact .head huv (ih hway)

/-- From a node on the way, the rest of it is left. -/
theorem exists_rest (h : Route r goal u way) (hv : v ∈ way) :
    Relation.TransGen r u v ∧ ∃ rest, Route r goal v rest ∧ rest.length < way.length := by
  induction way generalizing u with
  | nil => cases hv
  | cons w way ih =>
    obtain ⟨huw, -, hway⟩ := route_cons.1 h
    rcases List.mem_cons.1 hv with rfl | hv
    · exact ⟨.single huw, way, hway, Nat.lt_succ_self _⟩
    · obtain ⟨hwv, rest, hrest, hlt⟩ := ih hway hv
      exact ⟨.head huw hwv, rest, hrest, Nat.lt_succ_of_lt hlt⟩

variable (hr : Relator.RightUnique r)
include hr

theorem unique {way' : List Nat} (h : Route r goal u way) (h' : Route r goal u way') :
    way = way' := by
  induction way generalizing u way' with
  | nil =>
    cases way' with
    | nil => rfl
    | cons v way' =>
      obtain ⟨huv, hne, -⟩ := route_cons.1 h'
      exact absurd (hr huv (route_nil.1 h)) hne
  | cons v way ih =>
    obtain ⟨huv, hne, hway⟩ := route_cons.1 h
    cases way' with
    | nil => exact absurd (hr huv (route_nil.1 h')) hne
    | cons v' way' =>
      obtain ⟨huv', -, hway'⟩ := route_cons.1 h'
      obtain rfl := hr huv huv'
      rw [ih hway hway']

/-- A node met again would have two rests of the way ahead, one shorter than the other. -/
theorem nodup (h : Route r goal u way) : way.Nodup := by
  induction way generalizing u with
  | nil => exact List.nodup_nil
  | cons v way ih =>
    obtain ⟨-, -, hway⟩ := route_cons.1 h
    refine List.nodup_cons.2 ⟨fun hv => ?_, ih hway⟩
    obtain ⟨-, rest, hrest, hlt⟩ := hway.exists_rest hv
    rw [unique hr hrest hway] at hlt
    exact Nat.lt_irrefl _ hlt

/-- Nothing leads away from the way. -/
theorem closed (h : Route r goal u way) (hv : v ∈ u :: way) (hvw : r v w) :
    w = goal ∨ w ∈ way := by
  induction way generalizing u with
  | nil =>
    obtain rfl := List.mem_singleton.1 hv
    exact .inl (hr hvw (route_nil.1 h))
  | cons x way ih =>
    obtain ⟨hux, -, hway⟩ := route_cons.1 h
    rcases List.mem_cons.1 hv with rfl | hv
    · obtain rfl := hr hvw hux
      exact .inr List.mem_cons_self
    · exact (ih hway hv).imp_right (List.mem_cons_of_mem x)

/-- On the way from a node to itself lies all that it reaches. -/
theorem mem_of_reaches (h : Route r u u way) (hv : Relation.TransGen r u v) : v ∈ u :: way := by
  induction hv with
  | single huv => exact List.mem_cons.2 (closed hr h List.mem_cons_self huv)
  | tail _ hvw ih => exact List.mem_cons.2 (closed hr h ih hvw)

end Route

/-! ## Rings -/

/--
The nodes of a cycle as they are passed from the least of them on: each of them once, each pointing
at the next one and the last at the first.
-/
def Ring (r : Nat → Nat → Prop) : List Nat → Prop
  | [] => False
  | start :: rest =>
    (start :: (rest ++ [start])).IsChain r ∧ (start :: rest).Nodup ∧ ∀ u ∈ rest, start < u

theorem Ring.route {start : Nat} {rest : List Nat} (h : Ring r (start :: rest)) :
    Route r start start rest :=
  ⟨h.1, (List.nodup_cons.1 h.2.1).1⟩

variable {g : Graph}

theorem mem_route_iff (hr : Relator.RightUnique g.Edge) (h : Route g.Edge u u way) :
    v ∈ u :: way ↔ g.Linked u v := by
  constructor
  · intro hv
    rcases List.mem_cons.1 hv with rfl | hv
    · exact ⟨h.reaches_goal, h.reaches_goal⟩
    · obtain ⟨huv, rest, hrest, -⟩ := h.exists_rest hv
      exact ⟨huv, hrest.reaches_goal⟩
  · exact fun hv => h.mem_of_reaches hr hv.1

theorem ring_of_leads (hr : Relator.RightUnique g.Edge) (hu : g.Leads u)
    (h : Route g.Edge u u way) : Ring g.Edge (u :: way) := by
  refine ⟨h.chain, List.nodup_cons.2 ⟨h.fresh, h.nodup hr⟩, fun v hv => ?_⟩
  refine Nat.lt_of_le_of_ne ?_ fun heq => h.fresh (heq ▸ hv)
  refine Nat.le_of_not_lt fun hlt => hu.2 v hlt ?_
  exact (mem_route_iff hr h).1 (List.mem_cons_of_mem u hv)

theorem leads_of_ring (hr : Relator.RightUnique g.Edge) (h : Ring g.Edge (u :: way)) :
    g.Leads u := by
  refine ⟨(mem_route_iff hr h.route).1 List.mem_cons_self, fun v hv hlinked => ?_⟩
  rcases List.mem_cons.1 ((mem_route_iff hr h.route).2 hlinked) with rfl | hmem
  · exact Nat.lt_irrefl _ hv
  · exact Nat.lt_asymm hv (h.2.2 v hmem)

/--
Each group of nodes that reach each other can be walked as a ring, with the same first node and the
same nodes, and there is no ring besides.
-/
theorem exists_rings (h : g.InRange) (hr : Relator.RightUnique g.Edge) :
    ∃ ringOf : List Nat → List Nat,
      (∀ ring, ring ∈ g.cycles.map ringOf ↔ Ring g.Edge ring) ∧
      ((g.cycles.map ringOf).filterMap List.head?).Pairwise (· < ·) ∧
      (g.cycles.map ringOf).Pairwise List.Disjoint ∧
      ∀ c ∈ g.cycles, (ringOf c).head? = c.head? ∧ ∀ v, v ∈ ringOf c ↔ v ∈ c := by
  obtain ⟨us, hcycles, hus, hleads⟩ := exists_leaders h
  have hroute (u : Nat) (hu : g.Leads u) : ∃ way, Route g.Edge u u way := exists_route hu.1.1
  choose! way hway using hroute
  have hring {u : Nat} (hu : u ∈ us) : Ring g.Edge (u :: way u) :=
    ring_of_leads hr ((hleads u).1 hu) (hway u ((hleads u).1 hu))
  have hmem {u v : Nat} (hu : u ∈ us) : v ∈ u :: way u ↔ g.Linked u v :=
    mem_route_iff hr (hway u ((hleads u).1 hu))
  let ringOf (c : List Nat) : List Nat := c.head?.elim [] fun u => u :: way u
  have hringOf {u : Nat} (hu : u ∈ us) : ringOf (g.group u) = u :: way u := by
    simp only [ringOf, head?_group h ((hleads u).1 hu), Option.elim_some]
  have hmap : g.cycles.map ringOf = us.map fun u => u :: way u := by
    rw [hcycles, List.map_map]
    exact List.map_congr_left fun u hu => hringOf hu
  refine ⟨ringOf, fun ring => ?_, ?_, ?_, fun c hc => ?_⟩
  · rw [hmap, List.mem_map]
    constructor
    · rintro ⟨u, hu, rfl⟩
      exact hring hu
    · intro hring
      cases ring with
      | nil => exact hring.elim
      | cons u rest =>
        have hu := leads_of_ring hr hring
        exact ⟨u, (hleads u).2 hu, by rw [(hway u hu).unique hr hring.route]⟩
  · rw [hmap, List.filterMap_map]
    exact (List.filterMap_some (l := us)).symm ▸ hus
  · rw [hmap]
    refine List.pairwise_map.2 (hus.imp_of_mem fun {u v} hu hv huv w hwu hwv => ?_)
    have hlinked := ((hmem hv).1 hwv).trans ((hmem hu).1 hwu).symm
    exact ((hleads v).1 hv).2 u huv hlinked
  · rw [hcycles] at hc
    obtain ⟨u, hu, rfl⟩ := List.mem_map.1 hc
    rw [hringOf hu]
    refine ⟨(head?_group h ((hleads u).1 hu)).symm, fun v => ?_⟩
    rw [mem_group h, hmem hu]

end Graph
end Linkage
