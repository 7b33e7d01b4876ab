import Linkage.Proofs.Graph
import Mathlib.Data.List.Basic
import Mathlib.Data.Set.Insert
import Mathlib.Tactic.Tauto

/-!
# Linkage.Proofs.Graph.DepthFirst

Depth-first post-orders, over graphs with any cycles in them.

* `PostOrder g seen roots out` — a depth-first search from these roots, one after the other, leaves
  the nodes in the order `out`, if it has met the nodes `seen` before.
* `PostOrder.pairwise` — a node only comes before what it points at if that leads back to it.
* `search_append` — the search with a stack gives a post-order.
* `Traversal.DepthFirst` — a traversal that gives post-orders, and leaves alone what it gave before.
* `orderBy_respects` — the order that such a traversal gives.

A node may be on the stack several times. What is on the stack above a node was new when the node
was discovered, so an entry that is met again on top has been left by then, but for the node itself.
-/

namespace Linkage
namespace Graph

open Relation

/-! ## Post-orders -/

/-- What a node points at may be looked at in any order, and any number of times. -/
inductive PostOrder (g : Graph) : Set Nat → List Nat → List Nat → Prop where
  | nil {seen : Set Nat} : PostOrder g seen [] []
  | skip {seen : Set Nat} {u : Nat} {us out : List Nat} :
      u ∈ seen → PostOrder g seen us out → PostOrder g seen (u :: us) out
  | visit {seen : Set Nat} {u : Nat} {us next below out : List Nat} :
      u ∉ seen → (∀ v, v ∈ next ↔ g.Edge u v) → PostOrder g (insert u seen) next below →
      PostOrder g ({v | v ∈ below} ∪ insert u seen) us out →
      PostOrder g seen (u :: us) (below ++ u :: out)

namespace PostOrder

variable {g : Graph} {seen : Set Nat} {us vs out : List Nat} {u v : Nat}

theorem new (h : g.PostOrder seen us out) : ∀ v ∈ out, v ∉ seen := by
  induction h with
  | nil => exact fun v hv => absurd hv List.not_mem_nil
  | skip _ _ ih => exact ih
  | visit hu _ _ _ hbelow hafter =>
    intro v hv hseen
    rcases List.mem_append.1 hv with hv | hv
    · exact hbelow v hv (.inr hseen)
    · rcases List.mem_cons.1 hv with rfl | hv
      · exact hu hseen
      · exact hafter v hv (.inr (.inr hseen))

theorem mem (h : g.PostOrder seen us out) : ∀ u ∈ us, u ∈ seen ∨ u ∈ out := by
  induction h with
  | nil => exact fun u hu => absurd hu List.not_mem_nil
  | skip hu _ ih => exact List.forall_mem_cons.2 ⟨.inl hu, ih⟩
  | @visit seen u us next below out _ _ _ _ _ ih =>
    have hu : u ∈ below ++ u :: out := List.mem_append_right _ List.mem_cons_self
    refine List.forall_mem_cons.2 ⟨.inr hu, fun v hv => ?_⟩
    rcases ih v hv with (hv | rfl | hv) | hv
    · exact .inr (List.mem_append_left _ hv)
    · exact .inr hu
    · exact .inl hv
    · exact .inr (List.mem_append_right _ (List.mem_cons_of_mem _ hv))

theorem nodup (h : g.PostOrder seen us out) : out.Nodup := by
  induction h with
  | nil => exact List.nodup_nil
  | skip _ _ ih => exact ih
  | visit _ _ hbelow hafter ihbelow ihafter =>
    refine List.nodup_append.2 ⟨ihbelow, List.nodup_cons.2 ⟨?_, ihafter⟩, ?_⟩
    · exact fun hu => hafter.new _ hu (.inr (.inl rfl))
    · rintro v hv w hw rfl
      rcases List.mem_cons.1 hw with rfl | hw
      · exact hbelow.new v hv (.inl rfl)
      · exact hafter.new v hw (.inl hv)

theorem reached (h : g.PostOrder seen us out) : ∀ v ∈ out, ∃ u ∈ us, ReflTransGen g.Edge u v := by
  induction h with
  | nil => exact fun v hv => absurd hv List.not_mem_nil
  | skip _ _ ih =>
    intro v hv
    obtain ⟨u, hu, hr⟩ := ih v hv
    exact ⟨u, List.mem_cons_of_mem _ hu, hr⟩
  | @visit seen u us next below out _ hnext _ _ ihbelow ihafter =>
    intro v hv
    rcases List.mem_append.1 hv with hv | hv
    · obtain ⟨w, hw, hr⟩ := ihbelow v hv
      exact ⟨u, List.mem_cons_self, .head ((hnext w).1 hw) hr⟩
    · rcases List.mem_cons.1 hv with rfl | hv
      · exact ⟨v, List.mem_cons_self, .refl⟩
      · obtain ⟨w, hw, hr⟩ := ihafter v hv
        exact ⟨w, List.mem_cons_of_mem _ hw, hr⟩

/-- Whatever a node that was left points at has been met. -/
theorem closed (h : g.PostOrder seen us out) :
    ∀ u ∈ out, ∀ v, g.Edge u v → v ∈ seen ∨ v ∈ out := by
  induction h with
  | nil => exact fun u hu => absurd hu List.not_mem_nil
  | skip _ _ ih => exact ih
  | @visit seen u us next below out _ hnext hbelow _ ihbelow ihafter =>
    have hmet {v : Nat} (hv : v ∈ insert u seen ∨ v ∈ below) :
        v ∈ seen ∨ v ∈ below ++ u :: out := by
      rcases hv with (rfl | hv) | hv
      · exact .inr (List.mem_append_right _ List.mem_cons_self)
      · exact .inl hv
      · exact .inr (List.mem_append_left _ hv)
    intro w hw v he
    rcases List.mem_append.1 hw with hw | hw
    · exact hmet (ihbelow w hw v he)
    · rcases List.mem_cons.1 hw with rfl | hw
      · exact hmet (hbelow.mem v ((hnext v).2 he))
      · rcases ihafter w hw v he with (hv | hv) | hv
        · exact hmet (.inr hv)
        · exact hmet (.inl hv)
        · exact .inr (List.mem_append_right _ (List.mem_cons_of_mem _ hv))

/--
A node that points at one that is left later is below it in the search. By induction on the search:
what is left before `u` is reached from `u`, and points at nothing that is new after `u`.
-/
theorem pairwise (h : g.PostOrder seen us out) :
    out.Pairwise fun a b => g.Edge a b → g.Reaches b a := by
  induction h with
  | nil => exact .nil
  | skip _ _ ih => exact ih
  | @visit seen u us next below out _ hnext hbelow hafter ihbelow ihafter =>
    refine List.pairwise_append.2 ⟨ihbelow, List.pairwise_cons.2 ⟨?_, ihafter⟩, ?_⟩
    · intro b hb he
      have hmet : b ∈ {v | v ∈ below} ∪ insert u seen := (hbelow.mem b ((hnext b).2 he)).symm
      exact absurd hmet (hafter.new b hb)
    · intro a ha b hb he
      rcases List.mem_cons.1 hb with rfl | hb
      · obtain ⟨w, hw, hr⟩ := hbelow.reached a ha
        exact TransGen.head' ((hnext w).1 hw) hr
      · have hmet : b ∈ {v | v ∈ below} ∪ insert u seen := (hbelow.closed a ha b he).symm
        exact absurd hmet (hafter.new b hb)

/-- Without edges each root is left where it is met. -/
theorem eq_of_no_edges (hedges : g.edges = []) (h : g.PostOrder seen us out) (hus : us.Nodup)
    (hnew : ∀ u ∈ us, u ∉ seen) : out = us := by
  induction h with
  | nil => rfl
  | skip hu => exact absurd hu (hnew _ List.mem_cons_self)
  | @visit seen u us next below out _ hnext hbelow _ _ ih =>
    obtain ⟨hu, hus⟩ := List.nodup_cons.1 hus
    have hnone : next = [] := by
      refine List.eq_nil_iff_forall_not_mem.2 fun v hv => ?_
      have he := (hnext v).1 hv
      rw [Edge, hedges] at he
      exact absurd he List.not_mem_nil
    subst hnone
    cases hbelow
    refine congrArg (u :: ·) (ih hus fun v hv hmet => ?_)
    rcases hmet with hmet | rfl | hmet
    · exact absurd hmet List.not_mem_nil
    · exact hu hv
    · exact hnew v (List.mem_cons_of_mem u hv) hmet

/-- A search from more roots goes on with all that the first one has met. -/
theorem append (h : g.PostOrder seen us out) {more : List Nat} :
    g.PostOrder ({v | v ∈ out} ∪ seen) vs more → g.PostOrder seen (us ++ vs) (out ++ more) := by
  induction h with
  | nil =>
    intro hvs
    have hnone : {v : Nat | v ∈ ([] : List Nat)} = ∅ := by simp
    rwa [hnone, Set.empty_union] at hvs
  | skip hu _ ih => exact fun hvs => .skip hu (ih hvs)
  | @visit seen u us next below out hu hnext hbelow _ _ ih =>
    intro hvs
    have hmet : {v | v ∈ below ++ u :: out} ∪ seen =
        {v | v ∈ out} ∪ ({v | v ∈ below} ∪ insert u seen) := by
      ext v
      simp only [Set.mem_union, Set.mem_ofPred_eq, List.mem_append, List.mem_cons,
        Set.mem_insert_iff]
      tauto
    rw [hmet] at hvs
    rw [List.append_assoc]
    exact .visit hu hnext hbelow (ih hvs)

/-- Roots that were met before may be left out. -/
theorem of_filter {p : Nat → Bool} : ∀ {us : List Nat} {seen : Set Nat} {out : List Nat},
    (∀ u, p u = false → u ∈ seen) → g.PostOrder seen (us.filter p) out →
      g.PostOrder seen us out := by
  intro us
  induction us with
  | nil => exact fun _ h => h
  | cons u us ih =>
    intro seen out hp h
    cases hu : p u with
    | false =>
      rw [List.filter_cons_of_neg (by simp [hu])] at h
      exact .skip (hp u hu) (ih hp h)
    | true =>
      rw [List.filter_cons_of_pos hu] at h
      cases h with
      | skip hseen h => exact .skip hseen (ih hp h)
      | visit hnew hnext hbelow h =>
        exact .visit hnew hnext hbelow (ih (fun v hv => .inr (.inr (hp v hv))) h)

/-- All nodes below `size` are left once, if edges lead to no others. -/
theorem perm_range (hrange : g.InRange) (h : g.PostOrder ∅ (List.range g.size) out) :
    out.Perm (List.range g.size) := by
  refine (List.perm_ext_iff_of_nodup h.nodup List.nodup_range).2 fun v => ?_
  refine ⟨fun hv => ?_, fun hv => ?_⟩
  · obtain ⟨u, hu, hr⟩ := h.reached v hv
    rcases ReflTransGen.cases_tail hr with rfl | ⟨w, -, he⟩
    · exact hu
    · exact List.mem_range.2 (hrange.target w v he)
  · exact (h.mem v hv).resolve_left (Set.notMem_empty v)

theorem mem_of_edge (hrange : g.InRange) (h : g.PostOrder ∅ (List.range g.size) out)
    (he : g.Edge u v) : v ∈ out :=
  (h.perm_range hrange).mem_iff.2 (List.mem_range.2 (hrange.target u v he))

/-- A node that is on no cycle comes after all that it points at, whatever cycles there are. -/
theorem mem_of_eq_append (hrange : g.InRange) (h : g.PostOrder ∅ (List.range g.size) out)
    (hn : ¬ g.Reaches u u) {done rest : List Nat} (hout : out = done ++ u :: rest)
    (he : g.Edge u v) : v ∈ done := by
  have hv := h.mem_of_edge hrange he
  have hpairwise := h.pairwise
  rw [hout] at hv hpairwise
  rcases List.mem_append.1 hv with hv | hv
  · exact hv
  · exfalso
    rcases List.mem_cons.1 hv with rfl | hv
    · exact hn (.single he)
    · have hback := (List.pairwise_cons.1 (List.pairwise_append.1 hpairwise).2.1).1 v hv he
      exact hn (hback.head he)

theorem idxOf_lt (h : g.PostOrder seen us out) (hu : u ∈ out) (hv : v ∈ out) (he : g.Edge u v)
    (hback : ¬ g.Reaches v u) : out.idxOf v < out.idxOf u := by
  have hlu := List.idxOf_lt_length_of_mem hu
  have hlv := List.idxOf_lt_length_of_mem hv
  rcases Nat.lt_trichotomy (out.idxOf v) (out.idxOf u) with hlt | heq | hlt
  · exact hlt
  · obtain rfl := (List.idxOf_inj hv).1 heq
    exact absurd (.single he) hback
  · have hpair := List.pairwise_iff_getElem.1 h.pairwise _ _ hlu hlv hlt
    rw [List.getElem_idxOf, List.getElem_idxOf] at hpair
    exact absurd (hpair he) hback

end PostOrder

/-! ## The search with a stack -/

namespace Visited

/-- The nodes that were met. -/
def seen (s : Visited) : Set Nat := {u | s.isNew u = false}

/-- The nodes that were left. -/
def left (s : Visited) : Set Nat := {u | s.finished.testBit u = true}

variable {s t t' : Visited} {u v : Nat} {us below out : List Nat}

theorem isNew_of_not_seen (h : u ∉ s.seen) : s.isNew u = true := eq_true_of_ne_false h

theorem seen_discover : (s.discover u).seen = insert u s.seen := by
  ext v
  simp only [seen, Set.mem_ofPred_eq, Set.mem_insert_iff, isNew_discover]
  by_cases h : v = u <;> simp [h]

theorem left_discover : (s.discover u).left = s.left := rfl

theorem seen_finish : (s.finish u).seen = s.seen := rfl

theorem left_finish : (s.finish u).left = insert u s.left := by
  ext v
  simp only [left, finish, Set.mem_insert_iff, Set.mem_ofPred_eq, Nat.testBit_or,
    Nat.one_shiftLeft, Nat.testBit_two_pow, Bool.or_eq_true, decide_eq_true_eq]
  rw [or_comm, eq_comm]

/-- A search may begin at these roots: those of them that it has met it has left as well. -/
structure Ready (s : Visited) (us : List Nat) : Prop where
  left_seen : s.left ⊆ s.seen
  met : ∀ u ∈ us, u ∈ s.seen → u ∈ s.left

/-- The nodes `out` were met and left in between. -/
structure Gave (out : List Nat) (s t : Visited) : Prop where
  seen : t.seen = {v | v ∈ out} ∪ s.seen
  left : t.left = {v | v ∈ out} ∪ s.left

theorem Gave.nothing : Gave [] s s := by
  constructor <;> simp

theorem Ready.tail (h : s.Ready (u :: us)) : s.Ready us :=
  ⟨h.left_seen, fun v hv => h.met v (List.mem_cons_of_mem u hv)⟩

/-- What goes on the stack above `u` is new. -/
theorem Ready.targets (h : s.Ready us) (vs : List Nat) :
    (s.discover u).Ready (vs.filter (s.discover u).isNew) where
  left_seen := by
    rw [seen_discover, left_discover]
    exact h.left_seen.trans (Set.subset_insert u s.seen)
  met := by
    intro v hv hseen
    have hnew := (List.mem_filter.1 hv).2
    rw [show (s.discover u).isNew v = false from hseen] at hnew
    cases hnew

/-- What is above `u` is left, and then `u` is. -/
theorem Ready.finish (h : s.Ready (u :: us)) (hbelow : Gave below (s.discover u) t) :
    (t.finish u).Ready us where
  left_seen := by
    rw [left_finish, seen_finish, hbelow.left, hbelow.seen, seen_discover, left_discover]
    rintro v (rfl | hv | hv)
    · exact .inr (.inl rfl)
    · exact .inl hv
    · exact .inr (.inr (h.left_seen hv))
  met := by
    rw [left_finish, seen_finish, hbelow.left, hbelow.seen, seen_discover, left_discover]
    rintro v hv (hb | rfl | hs)
    · exact .inr (.inl hb)
    · exact .inl rfl
    · exact .inr (.inr (h.met v (List.mem_cons_of_mem u hv) hs))

theorem Gave.visit (hbelow : Gave below (s.discover u) t) (hafter : Gave out (t.finish u) t') :
    Gave (below ++ u :: out) s t' where
  seen := by
    rw [hafter.seen, seen_finish, hbelow.seen, seen_discover]
    ext v
    simp only [Set.mem_union, Set.mem_ofPred_eq, Set.mem_insert_iff, List.mem_append,
      List.mem_cons]
    tauto
  left := by
    rw [hafter.left, left_finish, hbelow.left, left_discover]
    ext v
    simp only [Set.mem_union, Set.mem_ofPred_eq, Set.mem_insert_iff, List.mem_append,
      List.mem_cons]
    tauto

end Visited

variable {g : Graph}

theorem mem_targets (g : Graph) (u v : Nat) : v ∈ g.targets u ↔ g.Edge u v := by
  simp [targets, Edge]

theorem stepsLeft_le (g : Graph) {s t : Visited} (stack : List Nat) (h : s.seen ⊆ t.seen) :
    g.stepsLeft stack t ≤ g.stepsLeft stack s := by
  have hnew (u : Nat) (hu : t.isNew u = true) : s.isNew u = true := by
    refine Visited.isNew_of_not_seen fun hs => ?_
    rw [show t.isNew u = false from h hs] at hu
    cases hu
  have hstack : stack.countP t.isNew ≤ stack.countP s.isNew :=
    List.countP_mono_left fun u _ hu => hnew u hu
  have hedges : g.edges.countP (fun e => t.isNew e.1) ≤ g.edges.countP fun e => s.isNew e.1 :=
    List.countP_mono_left fun e _ he => hnew e.1 he
  simp only [stepsLeft]
  omega

section

variable {s : Visited} {u : Nat} (stack : List Nat)

theorem search_new (h : u ∉ s.seen) : g.search (u :: stack) s =
    g.search ((g.targets u).filter (s.discover u).isNew ++ u :: stack) (s.discover u) := by
  rw [search, if_pos (Visited.isNew_of_not_seen h)]

theorem search_left (hseen : u ∈ s.seen) (hleft : u ∈ s.left) :
    g.search (u :: stack) s = g.search stack s := by
  have hold : s.isNew u = false := hseen
  have hfinished : s.finished.testBit u = true := hleft
  rw [search, hold, hfinished, if_neg Bool.false_ne_true, if_pos rfl]

theorem search_open (hseen : u ∈ s.seen) (hleft : u ∉ s.left) : g.search (u :: stack) s =
    (u :: (g.search stack (s.finish u)).1, (g.search stack (s.finish u)).2) := by
  have hold : s.isNew u = false := hseen
  have hfinished : s.finished.testBit u = false := eq_false_of_ne_true hleft
  rw [search, hold, hfinished, if_neg Bool.false_ne_true, if_neg Bool.false_ne_true]

end

/--
Roots on top of the stack are dealt with before the rest of it, and give a post-order. By induction
on the steps that are left: first what the root points at, with the root below it on the stack, then
the other roots.
-/
theorem search_append (g : Graph) (n : Nat) : ∀ (us stack : List Nat) (s : Visited),
    g.stepsLeft (us ++ stack) s = n → s.Ready us →
      ∃ out t, g.PostOrder s.seen us out ∧ Visited.Gave out s t ∧
        g.search (us ++ stack) s = (out ++ (g.search stack t).1, (g.search stack t).2) := by
  induction n using Nat.strongRecOn with
  | ind n ih =>
    rintro (_ | ⟨u, us⟩) stack s rfl hready
    · exact ⟨[], s, .nil, .nothing, rfl⟩
    by_cases hu : u ∈ s.seen
    · obtain ⟨out, t, hout, hgave, heq⟩ := ih _ (g.stepsLeft_cons s u (us ++ stack))
        us stack s rfl hready.tail
      refine ⟨out, t, .skip hu hout, hgave, ?_⟩
      rw [List.cons_append, search_left _ hu (hready.met u List.mem_cons_self hu), heq]
    · obtain ⟨below, t, hbelow, hgave, heq⟩ := ih _
        (g.stepsLeft_discover (us ++ stack) (Visited.isNew_of_not_seen hu)) _ (u :: (us ++ stack))
        (s.discover u) rfl (hready.targets (g.targets u))
      rw [Visited.seen_discover] at hbelow
      have hseen : t.seen = {v | v ∈ below} ∪ insert u s.seen := by
        rw [hgave.seen, Visited.seen_discover]
      have hon : u ∈ t.seen := by
        rw [hseen]
        exact .inr (.inl rfl)
      have hopen : u ∉ t.left := by
        rw [hgave.left, Visited.left_discover]
        rintro (hb | hl)
        · exact hbelow.new u hb (.inl rfl)
        · exact hu (hready.left_seen hl)
      have hless : g.stepsLeft (us ++ stack) t < g.stepsLeft (u :: us ++ stack) s := by
        refine (g.stepsLeft_le _ ?_).trans_lt (g.stepsLeft_cons s u (us ++ stack))
        rw [hseen]
        exact fun v hv => .inr (.inr hv)
      obtain ⟨out, t', hout, hgave', heq'⟩ := ih _ hless us stack (t.finish u) rfl
        (hready.finish hgave)
      rw [Visited.seen_finish, hseen] at hout
      have htargets : g.PostOrder (insert u s.seen) (g.targets u) below := by
        refine hbelow.of_filter fun v hv => ?_
        rw [← Visited.seen_discover]
        exact hv
      refine ⟨below ++ u :: out, t', .visit hu (g.mem_targets u) htargets hout,
        hgave.visit hgave', ?_⟩
      · rw [List.cons_append, search_new _ hu, heq, search_open _ hon hopen, heq',
          List.append_assoc, List.cons_append]

/-! ## Roots in turn -/

namespace Traversal

/--
From each root a traversal gives what a depth-first search leaves, and it keeps what it has met:
`met s seen` says that in the state `s` these are the nodes `seen`.
-/
structure DepthFirst (t : Traversal) (met : t.State → Set Nat → Prop) : Prop where
  start : met t.start ∅
  postOrder : ∀ (g : Graph) root s seen, met s seen →
    g.PostOrder seen [root] (t.walk g root s).1
  keeps : ∀ g root s seen, met s seen →
    met (t.walk g root s).2 ({v | v ∈ (t.walk g root s).1} ∪ seen)

theorem DepthFirst.walkAll {t : Traversal} {met : t.State → Set Nat → Prop} (h : t.DepthFirst met)
    (g : Graph) (roots : List Nat) : ∀ (s : t.State) (seen : Set Nat), met s seen →
      g.PostOrder seen roots (t.walkAll g roots s) := by
  induction roots with
  | nil => exact fun _ _ _ => .nil
  | cons root roots ih =>
    intro s seen hs
    exact (h.postOrder g root s seen hs).append (ih _ _ (h.keeps g root s seen hs))

end Traversal

theorem postOrder_orderBy {t : Traversal} {met : t.State → Set Nat → Prop} (h : t.DepthFirst met)
    (g : Graph) : g.PostOrder ∅ (List.range g.size) (g.orderBy t) :=
  h.walkAll g _ _ _ h.start

/-- Between two roots everything that was met has been left. -/
theorem depthFirst_depthFirst :
    depthFirst.DepthFirst fun s seen => Visited.seen s = seen ∧ Visited.left s = seen := by
  have hwalk (g : Graph) (root : Nat) (s : Visited) (hs : s.left = s.seen) :
      g.PostOrder s.seen [root] (g.search [root] s).1 ∧
        Visited.Gave (g.search [root] s).1 s (g.search [root] s).2 := by
    have hready : s.Ready [root] := by
      refine ⟨hs.subset, fun u _ hu => ?_⟩
      rwa [hs]
    obtain ⟨out, t, hout, hgave, heq⟩ := g.search_append _ [root] [] s rfl hready
    rw [search, List.append_nil, List.append_nil] at heq
    rw [heq]
    exact ⟨hout, hgave⟩
  refine ⟨⟨?_, ?_⟩, ?_, ?_⟩
  · ext u
    simp [Visited.seen, Visited.isNew, depthFirst, Visited.none]
  · ext u
    simp [Visited.left, depthFirst, Visited.none]
  · rintro g root s _ ⟨rfl, hs⟩
    exact (hwalk g root s hs).1
  · rintro g root s _ ⟨rfl, hs⟩
    obtain ⟨-, hseen, hleft⟩ := hwalk g root s hs
    exact ⟨hseen, hleft.trans (congrArg _ hs)⟩

/-- The nodes in the order in which they are evaluated are left by a depth-first search. -/
theorem postOrder_dependencyOrder (g : Graph) :
    g.PostOrder ∅ (List.range g.size) g.dependencyOrder := by
  rw [dependencyOrder]
  exact postOrder_orderBy depthFirst_depthFirst g

theorem dependencyOrder_perm (h : g.InRange) : g.dependencyOrder.Perm (List.range g.size) :=
  g.postOrder_dependencyOrder.perm_range h

/--
Whatever cycles there are, the order has every node once, and a node after all that it points at
but for what leads back to it. Without edges nothing changes places.
-/
theorem orderBy_respects {t : Traversal} {met : t.State → Set Nat → Prop} (ht : t.DepthFirst met)
    {g : Graph} (h : g.InRange) :
    (g.orderBy t).Perm (List.range g.size) ∧
      (∀ u v, (u, v) ∈ g.edges → ¬ g.Reaches v u →
        (g.orderBy t).idxOf v < (g.orderBy t).idxOf u) ∧
      (g.edges = [] → g.orderBy t = List.range g.size) := by
  have horder := postOrder_orderBy ht g
  have hperm := horder.perm_range h
  refine ⟨hperm, fun u v he hback => ?_, fun hedges => ?_⟩
  · have hu := hperm.mem_iff.2 (List.mem_range.2 (h.source u v he))
    have hv := hperm.mem_iff.2 (List.mem_range.2 (h.target u v he))
    exact horder.idxOf_lt hu hv he hback
  · exact horder.eq_of_no_edges hedges List.nodup_range fun u _ => Set.notMem_empty u

/-- A cycle of `1`, `2` and `3`, met from `0` in two ways, a loop at `4`, and a root above `0`. -/
def knot : Graph :=
  ⟨6, [(0, 3), (0, 2), (3, 2), (2, 1), (1, 3), (2, 1), (5, 4), (4, 4), (5, 0)]⟩

theorem orderBy_respects_knot :
    knot.orderBy depthFirst = [1, 2, 3, 0, 4, 5] ∧
      (knot.orderBy depthFirst).Perm (List.range 6) ∧
      (knot.orderBy depthFirst).idxOf 0 < (knot.orderBy depthFirst).idxOf 5 := by
  have hrange : knot.InRange := by
    constructor <;> intro u v he <;> simp [Edge, knot] at he <;> simp only [knot] <;> omega
  have hback : ¬ knot.Reaches 0 5 := by
    intro hr
    obtain ⟨w, -, he⟩ := TransGen.tail'_iff.1 hr
    simp [Edge, knot] at he
  obtain ⟨hperm, hbefore, -⟩ := orderBy_respects depthFirst_depthFirst hrange
  exact ⟨by decide +kernel, hperm, hbefore 5 0 (by simp [knot]) hback⟩

end Graph
end Linkage
