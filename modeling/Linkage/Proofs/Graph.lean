import Linkage.Graph
import Mathlib.Logic.Relation

/-!
# Linkage.Proofs.Graph

What the graph algorithms compute, in terms of paths. `Reaches` is a path of one edge or more.

* `row_closure` — the bit sets of `closure` are the nodes that a node reaches.
* `groups_cycles` — the cycles are the classes of the nodes that reach themselves.
* `cycles_eq_nil` — there are no cycles exactly if no node reaches itself.
* `Represents` — the graph is a relation between names; one has cycles exactly if the other does.
* `weight_lt`, `induction_of_acyclic` — a node reaches more nodes than one that it reaches and that
  does not lead back to it, so without cycles there is induction along the edges.

`allow` lets paths pass through one more node. `Closed` is the invariant of its iteration: the
relation is transitive at the nodes dealt with so far.
-/

namespace Linkage
namespace Graph

/-! ## Paths -/

def Edge (g : Graph) (u v : Nat) : Prop := (u, v) ∈ g.edges

def Reaches (g : Graph) : Nat → Nat → Prop := Relation.TransGen g.Edge

structure InRange (g : Graph) : Prop where
  source : ∀ u v, g.Edge u v → u < g.size
  target : ∀ u v, g.Edge u v → v < g.size

variable {g : Graph}

theorem Reaches.source_lt (h : g.InRange) {u v : Nat} (hr : g.Reaches u v) : u < g.size := by
  induction hr using Relation.TransGen.head_induction_on with
  | single e => exact h.source _ _ e
  | head e _ _ => exact h.source _ _ e

theorem Reaches.target_lt (h : g.InRange) {u v : Nat} (hr : g.Reaches u v) : v < g.size := by
  cases hr with
  | single e => exact h.target _ _ e
  | tail _ e => exact h.target _ _ e

/-! ## Bit sets -/

theorem testBit_successors (g : Graph) (u v : Nat) :
    (g.successors u).testBit v = true ↔ g.Edge u v := by
  have hfold : ∀ (es : List (Nat × Nat)) (set : Nat),
      (es.foldl (fun set e => if e.1 = u then set ||| 1 <<< e.2 else set) set).testBit v = true ↔
        set.testBit v = true ∨ (u, v) ∈ es := by
    intro es
    induction es with
    | nil => intro set; simp
    | cons e es ih =>
      intro set
      obtain ⟨a, b⟩ := e
      rw [List.foldl_cons, ih]
      by_cases ha : a = u
      · subst ha
        have hbit : (1 <<< b).testBit v = true ↔ v = b := by
          rw [Nat.one_shiftLeft, Nat.testBit_two_pow, decide_eq_true_eq, eq_comm]
        simp only [if_true, Nat.testBit_or, Bool.or_eq_true, hbit, List.mem_cons, Prod.mk.injEq,
          true_and, or_assoc]
      · simp [ha, Ne.symm ha]
  simpa [successors, Edge] using hfold g.edges 0

/-- The relation that rows of bits stand for. -/
def Row (rows : Array Nat) (u v : Nat) : Prop := (rows.getD u 0).testBit v = true

theorem row_allow (rows : Array Nat) (via u v : Nat) :
    Row (allow rows via) u v ↔ Row rows u v ∨ (Row rows u via ∧ Row rows via v) := by
  have hget : (allow rows via).getD u 0 =
      if (rows.getD u 0).testBit via then rows.getD u 0 ||| rows.getD via 0 else rows.getD u 0 := by
    simp only [allow, Array.getD_eq_getD_getElem?, Array.getElem?_map]
    cases rows[u]? with
    | none => simp
    | some row => simp
  unfold Row
  rw [hget]
  by_cases h : (rows.getD u 0).testBit via = true
  · rw [if_pos h, Nat.testBit_or, Bool.or_eq_true]
    simp only [h, true_and]
  · rw [if_neg h]
    exact ⟨.inl, fun hr => hr.elim id fun hr => absurd hr.1 h⟩

/-! ## Closure -/

/-- Two steps of the relation that meet at a node below `n` are one step of it. -/
def Closed (rows : Array Nat) (n : Nat) : Prop :=
  ∀ k < n, ∀ u v, Row rows u k → Row rows k v → Row rows u v

theorem Closed.allow {rows : Array Nat} {n : Nat} (h : Closed rows n) :
    Closed (allow rows n) (n + 1) := by
  intro k hk u v huk hkv
  rw [row_allow] at huk hkv ⊢
  obtain hk | rfl := Nat.lt_succ_iff_lt_or_eq.1 hk
  · rcases huk with huk | ⟨hun, hnk⟩
    · rcases hkv with hkv | ⟨hkn, hnv⟩
      · exact .inl (h k hk u v huk hkv)
      · exact .inr ⟨h k hk u n huk hkn, hnv⟩
    · rcases hkv with hkv | ⟨_, hnv⟩
      · exact .inr ⟨hun, h k hk n v hnk hkv⟩
      · exact .inr ⟨hun, hnv⟩
  · have huk : Row rows u k := huk.elim id And.left
    have hkv : Row rows k v := hkv.elim id And.right
    exact .inr ⟨huk, hkv⟩

/-- The rows after the first `n` nodes have been allowed. -/
def stage (g : Graph) (n : Nat) : Array Nat :=
  (List.range n).foldl Graph.allow ((List.range g.size).map g.successors).toArray

theorem stage_succ (g : Graph) (n : Nat) : g.stage (n + 1) = allow (g.stage n) n := by
  simp only [stage, List.range_succ, List.foldl_append, List.foldl_cons, List.foldl_nil]

theorem row_stage_zero (h : g.InRange) (u v : Nat) : Row (g.stage 0) u v ↔ g.Edge u v := by
  have hget : (g.stage 0).getD u 0 = if u < g.size then g.successors u else 0 := by
    by_cases hu : u < g.size <;> simp [stage, hu]
  unfold Row
  rw [hget]
  by_cases hu : u < g.size
  · rw [if_pos hu, testBit_successors]
  · rw [if_neg hu, Nat.zero_testBit]
    exact iff_of_false Bool.false_ne_true fun he => hu (h.source u v he)

theorem closed_stage (g : Graph) (n : Nat) : Closed (g.stage n) n := by
  induction n with
  | zero => intro k hk; omega
  | succ n ih =>
    rw [stage_succ]
    exact ih.allow

theorem reaches_of_row_stage (h : g.InRange) (n : Nat) :
    ∀ u v, Row (g.stage n) u v → g.Reaches u v := by
  induction n with
  | zero => exact fun u v hr => .single ((row_stage_zero h u v).1 hr)
  | succ n ih =>
    intro u v hr
    rw [stage_succ, row_allow] at hr
    rcases hr with hr | ⟨hun, hnv⟩
    · exact ih u v hr
    · exact (ih u n hun).trans (ih n v hnv)

theorem row_stage_of_edge (h : g.InRange) (n : Nat) {u v : Nat} (he : g.Edge u v) :
    Row (g.stage n) u v := by
  induction n with
  | zero => exact (row_stage_zero h u v).2 he
  | succ n ih =>
    rw [stage_succ, row_allow]
    exact .inl ih

theorem row_closure (h : g.InRange) (u v : Nat) : Row g.closure u v ↔ g.Reaches u v := by
  refine ⟨reaches_of_row_stage h g.size u v, fun hr => ?_⟩
  induction hr with
  | single e => exact row_stage_of_edge h g.size e
  | tail _ e ih => exact closed_stage g g.size _ (h.source _ _ e) u _ ih (row_stage_of_edge h _ e)

/-! ## Cycles -/

/-- The two nodes lie on one cycle. -/
def Linked (g : Graph) (u v : Nat) : Prop := g.Reaches u v ∧ g.Reaches v u

theorem Linked.symm {u v : Nat} (h : g.Linked u v) : g.Linked v u := ⟨h.2, h.1⟩

theorem Linked.trans {u v w : Nat} (huv : g.Linked u v) (hvw : g.Linked v w) : g.Linked u w :=
  ⟨huv.1.trans hvw.1, hvw.2.trans huv.2⟩

theorem linked_self {u : Nat} : g.Linked u u ↔ g.Reaches u u := and_self_iff

theorem linked_iff (h : g.InRange) (u v : Nat) :
    ((g.closure.getD u 0).testBit v && (g.closure.getD v 0).testBit u) = true ↔ g.Linked u v := by
  rw [Bool.and_eq_true]
  exact and_congr (row_closure h u v) (row_closure h v u)

/-- The nodes on one cycle with a node. -/
def group (g : Graph) (u : Nat) : List Nat :=
  (List.range g.size).filter fun v =>
    (g.closure.getD u 0).testBit v && (g.closure.getD v 0).testBit u

theorem mem_group (h : g.InRange) {u v : Nat} : v ∈ g.group u ↔ g.Linked u v := by
  rw [group, List.mem_filter, linked_iff h, List.mem_range]
  exact and_iff_right_of_imp fun hlinked => hlinked.1.target_lt h

theorem ascending_group (g : Graph) (u : Nat) : (g.group u).Pairwise (· < ·) :=
  List.pairwise_lt_range.filter _

/-- On a cycle, and the first node there. -/
def Leads (g : Graph) (u : Nat) : Prop := g.Linked u u ∧ ∀ v < u, ¬ g.Linked u v

theorem head?_group (h : g.InRange) {u : Nat} (hu : g.Leads u) : (g.group u).head? = some u := by
  rw [group, List.head?_filter, List.find?_range_eq_some, linked_iff h]
  refine ⟨hu.1, List.mem_range.2 (hu.1.1.source_lt h), fun v hv => ?_⟩
  rw [Bool.not_eq_true', Bool.eq_false_iff, Ne, linked_iff h]
  exact hu.2 v hv

/-- The groups with their first nodes, which ascend. -/
theorem exists_leaders (h : g.InRange) :
    ∃ us : List Nat, g.cycles = us.map g.group ∧ us.Pairwise (· < ·) ∧ ∀ u, u ∈ us ↔ g.Leads u := by
  let leads (u : Nat) : Bool :=
    ((g.closure.getD u 0).testBit u && (g.closure.getD u 0).testBit u) &&
      !(List.range u).any fun v =>
        (g.closure.getD u 0).testBit v && (g.closure.getD v 0).testBit u
  have hleads (u : Nat) : leads u = true ↔ g.Leads u := by
    show (_ && _) = true ↔ _
    rw [Bool.and_eq_true, linked_iff h, Bool.not_eq_true', List.any_eq_false]
    simp only [List.mem_range, linked_iff h]
    rfl
  refine ⟨(List.range g.size).filter leads, ?_, List.pairwise_lt_range.filter _, fun u => ?_⟩
  · rw [← List.filterMap_eq_map, List.filterMap_filter]
    rfl
  · rw [List.mem_filter, hleads, List.mem_range]
    exact and_iff_right_of_imp fun hu => hu.1.1.source_lt h

/-- The groups are the classes of the nodes that have a path to themselves. -/
structure Groups (r : Nat → Nat → Prop) (groups : List (List Nat)) : Prop where
  covers : ∀ u, (∃ c ∈ groups, u ∈ c) ↔ Relation.TransGen r u u
  linked : ∀ c ∈ groups, ∀ u ∈ c, ∀ v,
    v ∈ c ↔ Relation.TransGen r u v ∧ Relation.TransGen r v u
  disjoint : groups.Pairwise fun c d => ∀ u ∈ c, u ∉ d
  ascending : ∀ c ∈ groups, c.Pairwise (· < ·)
  /-- No group is empty, and their first members ascend. -/
  ordered : ∃ firsts : List Nat, groups.map List.head? = firsts.map some ∧
    firsts.Pairwise (· < ·)

theorem exists_leads {u : Nat} (hu : g.Linked u u) : ∃ v, g.Leads v ∧ g.Linked v u := by
  induction u using Nat.strongRecOn with
  | ind u ih =>
    by_cases hfirst : ∃ v < u, g.Linked u v
    · obtain ⟨v, hv, huv⟩ := hfirst
      obtain ⟨w, hw, hwv⟩ := ih v hv (huv.symm.trans huv)
      exact ⟨w, hw, hwv.trans huv.symm⟩
    · exact ⟨u, ⟨hu, fun v hv huv => hfirst ⟨v, hv, huv⟩⟩, hu⟩

theorem groups_cycles (h : g.InRange) : Groups g.Edge g.cycles := by
  obtain ⟨us, hcycles, hus, hleads⟩ := exists_leaders h
  rw [hcycles]
  constructor
  case covers =>
    intro u
    constructor
    · rintro ⟨c, hc, hu⟩
      obtain ⟨v, -, rfl⟩ := List.mem_map.1 hc
      have hvu := (mem_group h).1 hu
      exact hvu.2.trans hvu.1
    · intro hu
      obtain ⟨v, hv, hvu⟩ := exists_leads (linked_self.2 hu)
      exact ⟨g.group v, List.mem_map_of_mem ((hleads v).2 hv), (mem_group h).2 hvu⟩
  case linked =>
    intro c hc u hu v
    obtain ⟨w, -, rfl⟩ := List.mem_map.1 hc
    rw [mem_group h] at hu ⊢
    exact ⟨fun hv => hu.symm.trans hv, fun hv => hu.trans hv⟩
  case disjoint =>
    refine List.pairwise_map.2 (hus.imp_of_mem fun {u v} hu hv huv w hwu hwv => ?_)
    have hlinked := ((mem_group h).1 hwv).trans ((mem_group h).1 hwu).symm
    exact ((hleads v).1 hv).2 u huv hlinked
  case ascending =>
    intro c hc
    obtain ⟨u, -, rfl⟩ := List.mem_map.1 hc
    exact g.ascending_group u
  case ordered =>
    refine ⟨us, ?_, hus⟩
    rw [List.map_map]
    exact List.map_congr_left fun u hu => head?_group h ((hleads u).1 hu)

theorem cycles_eq_nil (h : g.InRange) : g.cycles = [] ↔ ∀ u, ¬ g.Reaches u u := by
  have hcovers := (groups_cycles h).covers
  constructor
  · intro hnil u hu
    obtain ⟨c, hc, -⟩ := (hcovers u).2 hu
    rw [hnil] at hc
    cases hc
  · intro hn
    obtain ⟨us, hcycles, -, hleads⟩ := exists_leaders h
    rw [hcycles, List.map_eq_nil_iff]
    exact List.eq_nil_iff_forall_not_mem.2 fun u hu => hn u ((hleads u).1 hu).1.1

theorem mem_flatten_cycles (h : g.InRange) {u : Nat} : u ∈ g.cycles.flatten ↔ g.Reaches u u := by
  rw [List.mem_flatten]
  exact (groups_cycles h).covers u

theorem cons_of_mem_cycles {c : List Nat} (h : c ∈ g.cycles) :
    ∃ u rest, c = u :: rest ∧ u < g.size := by
  unfold cycles at h
  obtain ⟨u, hu, hc⟩ := List.mem_filterMap.1 h
  dsimp only at hc
  split at hc
  · rename_i hlinked
    cases hc
    have hmem : u ∈ (List.range g.size).filter fun v =>
        (g.closure.getD u 0).testBit v && (g.closure.getD v 0).testBit u :=
      List.mem_filter.2 ⟨hu, (Bool.and_eq_true_iff.1 hlinked).1⟩
    cases hcycle : (List.range g.size).filter fun v =>
        (g.closure.getD u 0).testBit v && (g.closure.getD v 0).testBit u with
    | nil =>
      rw [hcycle] at hmem
      cases hmem
    | cons v rest =>
      have hv := List.mem_filter.1 (hcycle ▸ List.mem_cons_self)
      exact ⟨v, rest, rfl, List.mem_range.1 hv.1⟩
  · cases hc

/-! ## Names -/

/-- The edges are what a relation says of the names of the nodes. -/
structure Represents (g : Graph) (name : Nat → String) (r : String → String → Prop) : Prop where
  inRange : g.InRange
  injective : ∀ u < g.size, ∀ v < g.size, name u = name v → u = v
  related : ∀ u v, g.Edge u v → r (name u) (name v)
  edge : ∀ a b, r a b → ∃ u v, name u = a ∧ name v = b ∧ g.Edge u v

/-- Nodes are places in a list here, and items of the list have names of their own. -/
theorem represents_of_edges {α : Type} {xs : List α} {f : α → String} {name : Nat → String}
    {step : α → α → Prop} {r : String → String → Prop} (hf : (xs.map f).Nodup)
    (hsize : g.size = xs.length) (hname : ∀ u x, xs[u]? = some x → name u = f x)
    (hedge : ∀ u v, g.Edge u v ↔ ∃ x y, xs[u]? = some x ∧ xs[v]? = some y ∧ step x y)
    (hr : ∀ a b, r a b ↔ ∃ x ∈ xs, ∃ y ∈ xs, f x = a ∧ f y = b ∧ step x y) :
    g.Represents name r := by
  have hlt {u : Nat} {x : α} (hx : xs[u]? = some x) : u < g.size :=
    hsize ▸ (List.getElem?_eq_some_iff.1 hx).1
  constructor
  case inRange =>
    constructor
    · intro u v he
      obtain ⟨x, y, hx, -⟩ := (hedge u v).1 he
      exact hlt hx
    · intro u v he
      obtain ⟨x, y, -, hy, -⟩ := (hedge u v).1 he
      exact hlt hy
  case injective =>
    intro u hu v hv huv
    rw [hsize] at hu hv
    rw [hname u _ (List.getElem?_eq_getElem hu), hname v _ (List.getElem?_eq_getElem hv)] at huv
    have hu' : u < (xs.map f).length := by rwa [List.length_map]
    have hv' : v < (xs.map f).length := by rwa [List.length_map]
    have heq : (xs.map f)[u] = (xs.map f)[v] := by rwa [List.getElem_map, List.getElem_map]
    exact (List.getElem_inj hf).1 heq
  case related =>
    intro u v he
    obtain ⟨x, y, hx, hy, hstep⟩ := (hedge u v).1 he
    rw [hname u x hx, hname v y hy]
    exact (hr _ _).2 ⟨x, List.mem_of_getElem? hx, y, List.mem_of_getElem? hy, rfl, rfl, hstep⟩
  case edge =>
    intro a b hab
    obtain ⟨x, hx, y, hy, rfl, rfl, hstep⟩ := (hr a b).1 hab
    obtain ⟨u, hu⟩ := List.mem_iff_getElem?.1 hx
    obtain ⟨v, hv⟩ := List.mem_iff_getElem?.1 hy
    exact ⟨u, v, hname u x hu, hname v y hv, (hedge u v).2 ⟨x, y, hu, hv, hstep⟩⟩

theorem Represents.reaches {name : Nat → String} {r : String → String → Prop}
    (h : g.Represents name r) {a b : String} (hab : Relation.TransGen r a b) :
    ∃ u v, name u = a ∧ name v = b ∧ g.Reaches u v := by
  induction hab with
  | single hab =>
    obtain ⟨u, v, hu, hv, he⟩ := h.edge _ _ hab
    exact ⟨u, v, hu, hv, .single he⟩
  | tail _ hbc ih =>
    obtain ⟨u, v, hu, hv, hr⟩ := ih
    obtain ⟨v', w, hv', hw, he⟩ := h.edge _ _ hbc
    obtain rfl := h.injective v (hr.target_lt h.inRange) v' (h.inRange.source _ _ he)
      (hv.trans hv'.symm)
    exact ⟨u, w, hu, hw, hr.tail he⟩

theorem Represents.acyclic_iff {name : Nat → String} {r : String → String → Prop}
    (h : g.Represents name r) :
    (∀ u, ¬ g.Reaches u u) ↔ ∀ a, ¬ Relation.TransGen r a a := by
  constructor
  · intro hn a ha
    obtain ⟨u, v, hu, hv, hr⟩ := h.reaches ha
    obtain rfl := h.injective u (hr.source_lt h.inRange) v (hr.target_lt h.inRange)
      (hu.trans hv.symm)
    exact hn u hr
  · intro hn u hu
    exact hn (name u) (hu.lift name h.related)

/-! ## Weight -/

/-- How many nodes a node reaches, itself included. -/
def weight (g : Graph) (u : Nat) : Nat :=
  (List.range g.size).countP fun v => v == u || (g.closure.getD u 0).testBit v

theorem countP_lt {α : Type} {p q : α → Bool} {xs : List α} (hpq : ∀ x ∈ xs, p x → q x) {x : α}
    (hx : x ∈ xs) (hp : ¬ p x) (hq : q x) : xs.countP p < xs.countP q := by
  induction xs with
  | nil => cases hx
  | cons y ys ih =>
    have hys : ∀ z ∈ ys, p z → q z := fun z hz => hpq z (List.mem_cons_of_mem y hz)
    obtain rfl | hx := List.mem_cons.1 hx
    · rw [List.countP_cons_of_neg hp, List.countP_cons_of_pos hq]
      exact Nat.lt_succ_of_le (List.countP_mono_left hys)
    · have hlt := ih hys hx
      by_cases hpy : p y = true
      · rw [List.countP_cons_of_pos hpy, List.countP_cons_of_pos (hpq y List.mem_cons_self hpy)]
        omega
      · rw [List.countP_cons_of_neg hpy, List.countP_cons]
        omega

theorem weight_pos {u : Nat} (hu : u < g.size) : 0 < g.weight u := by
  rw [weight, List.countP_pos_iff]
  exact ⟨u, List.mem_range.2 hu, by simp⟩

theorem weight_le_size (g : Graph) (u : Nat) : g.weight u ≤ g.size := by
  simpa [weight] using List.countP_le_length (l := List.range g.size)

/-- What `v` reaches `u` reaches as well, and `u` itself only counts for `u`. -/
theorem weight_lt (h : g.InRange) {u v : Nat} (huv : g.Reaches u v) (hvu : ¬ g.Reaches v u) :
    g.weight v < g.weight u := by
  have hmem (a b : Nat) : (b == a || (g.closure.getD a 0).testBit b) = true ↔
      b = a ∨ g.Reaches a b := by
    rw [Bool.or_eq_true, beq_iff_eq]
    exact or_congr_right (row_closure h a b)
  refine countP_lt (fun x _ hx => ?_) (List.mem_range.2 (huv.source_lt h)) (fun hu => ?_)
    ((hmem u u).2 (.inl rfl))
  · rw [hmem] at hx ⊢
    rcases hx with rfl | hx
    · exact .inr huv
    · exact .inr (huv.trans hx)
  · rcases (hmem v u).1 hu with rfl | hu
    · exact hvu huv
    · exact hvu hu

/-- What holds of a node once it holds of all that the node points at holds of every node. -/
theorem induction_of_acyclic (h : g.InRange) (hn : ∀ u, ¬ g.Reaches u u) {p : Nat → Prop}
    (step : ∀ u, (∀ v, g.Edge u v → p v) → p u) (u : Nat) : p u := by
  induction hw : g.weight u using Nat.strongRecOn generalizing u with
  | ind w ih =>
    subst hw
    refine step u fun v he => ih _ (weight_lt h (.single he) fun hback => hn u (hback.head he)) v rfl

end Graph
end Linkage
