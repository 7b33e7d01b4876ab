/-!
# Linkage.Graph

Directed graphs on the nodes `0, …, size - 1`: which nodes lie on cycles, and an order in which
every node follows what it points at.

* `closure` — the nodes that a non-empty path leads to, one bit each, for every node.
* `cycles` — the groups of nodes that reach each other.
* `cyclesAmong` — these groups as what is left of any list of the strongly connected components.
* `search` — a depth-first search with a stack of its own.
* `orderBy`, `dependencyOrder` — the nodes as a traversal from each of them in turn leaves them.
-/

namespace Linkage

structure Graph where
  size : Nat
  edges : List (Nat × Nat)

namespace Graph

/-! ## Cycles -/

/-- The direct successors of a node as a bit set. -/
def successors (g : Graph) (u : Nat) : Nat :=
  g.edges.foldl (fun set e => if e.1 = u then set ||| 1 <<< e.2 else set) 0

/-- Lets paths pass through one more node: what reaches it reaches all that it reaches. -/
def allow (rows : Array Nat) (via : Nat) : Array Nat :=
  let beyond := rows.getD via 0
  rows.map fun row => if row.testBit via then row ||| beyond else row

/-- For every node the bit set of the nodes that it reaches in one step or more. -/
def closure (g : Graph) : Array Nat :=
  (List.range g.size).foldl allow ((List.range g.size).map g.successors).toArray

/--
The groups of nodes that reach each other, a node on its own only if it reaches itself. Members
ascend, and the groups are ordered by their first members.
-/
def cycles (g : Graph) : List (List Nat) :=
  let rows := g.closure
  let linked (u v : Nat) : Bool := (rows.getD u 0).testBit v && (rows.getD v 0).testBit u
  let nodes := List.range g.size
  nodes.filterMap fun u =>
    if linked u u && !(List.range u).any (linked u) then some (nodes.filter (linked u))
    else none

def hasLoop (g : Graph) (u : Nat) : Bool := g.edges.contains (u, u)

/-- A strongly connected component is a cycle unless it is one node without a loop. -/
def isCycle (g : Graph) (members : List Nat) : Bool :=
  decide (1 < members.length) || members.head?.any g.hasLoop

/--
The cycles among strongly connected components. Whatever order the components come in and their
members, members ascend, and the cycles are ordered by their first members.
-/
def cyclesAmong (g : Graph) (components : List (List Nat)) : List (List Nat) :=
  ((components.map fun members => members.mergeSort fun u v => u ≤ v).filter g.isCycle).mergeSort
    fun c d => c.headD 0 ≤ d.headD 0

/-! ## Depth-first search -/

/-- Where the edges of a node lead, in the order of the edges. -/
def targets (g : Graph) (u : Nat) : List Nat :=
  (g.edges.filter fun e => e.1 == u).map Prod.snd

/-- The nodes that a search has met, and those of them that it has left again, as bit sets. -/
structure Visited where
  discovered : Nat
  finished : Nat

namespace Visited

def none : Visited := ⟨0, 0⟩

def isNew (s : Visited) (u : Nat) : Bool := !s.discovered.testBit u

def discover (s : Visited) (u : Nat) : Visited :=
  { s with discovered := s.discovered ||| 1 <<< u }

def finish (s : Visited) (u : Nat) : Visited :=
  { s with finished := s.finished ||| 1 <<< u }

theorem isNew_discover (s : Visited) (u v : Nat) :
    (s.discover u).isNew v = (s.isNew v && v != u) := by
  rw [isNew, isNew, discover, Nat.testBit_or, Nat.one_shiftLeft, Nat.testBit_two_pow,
    Bool.not_or, bne_comm]
  rfl

end Visited

/--
More steps than this a search does not take. A node that is new counts twice where it is on the
stack, since it is looked at again after what it points at, and twice with each edge to it.
-/
def stepsLeft (g : Graph) (stack : List Nat) (s : Visited) : Nat :=
  stack.length + stack.countP s.isNew + 2 * g.edges.countP fun e => s.isNew e.1

theorem countP_isNew_discover (g : Graph) {s : Visited} {u : Nat} (h : s.isNew u) :
    (g.edges.countP fun e => (s.discover u).isNew e.1) + (g.targets u).length =
      g.edges.countP fun e => s.isNew e.1 := by
  rw [targets, List.length_map, ← List.countP_eq_length_filter]
  induction g.edges with
  | nil => rfl
  | cons e es ih =>
    simp only [List.countP_cons, Visited.isNew_discover] at ih ⊢
    by_cases he : e.1 = u
    · simp [he, h]
      omega
    · simp [he]
      omega

theorem stepsLeft_discover (g : Graph) {s : Visited} {u : Nat} (stack : List Nat)
    (h : s.isNew u) :
    g.stepsLeft ((g.targets u).filter (s.discover u).isNew ++ u :: stack) (s.discover u) <
      g.stepsLeft (u :: stack) s := by
  have hedges := g.countP_isNew_discover h
  have hlength := List.length_filter_le (s.discover u).isNew (g.targets u)
  have hnew := List.countP_le_length (p := (s.discover u).isNew)
    (l := (g.targets u).filter (s.discover u).isNew)
  have hstack : stack.countP (s.discover u).isNew ≤ stack.countP s.isNew :=
    List.countP_mono_left fun v _ hv => by
      rw [Visited.isNew_discover, Bool.and_eq_true] at hv
      exact hv.1
  have hu : (s.discover u).isNew u = false := by simp [Visited.isNew_discover]
  simp only [stepsLeft, List.length_append, List.countP_append, List.length_cons,
    List.countP_cons, h, hu, if_true, Bool.false_eq_true, if_false]
  omega

theorem stepsLeft_cons (g : Graph) (s : Visited) (u : Nat) (stack : List Nat) :
    g.stepsLeft stack s < g.stepsLeft (u :: stack) s := by
  simp only [stepsLeft, List.length_cons, List.countP_cons]
  omega

/--
Searches the graph from the nodes on the stack and gives the nodes in the order in which they are
left. A node is left when it is on top again after all that it points at.
-/
def search (g : Graph) : List Nat → Visited → List Nat × Visited
  | [], s => ([], s)
  | u :: stack, s =>
    if s.isNew u then
      search g ((g.targets u).filter (s.discover u).isNew ++ u :: stack) (s.discover u)
    else if s.finished.testBit u then search g stack s
    else
      let (nodes, t) := search g stack (s.finish u)
      (u :: nodes, t)
termination_by stack s => g.stepsLeft stack s
decreasing_by
  · exact g.stepsLeft_discover stack ‹_›
  · exact g.stepsLeft_cons s u stack
  · exact g.stepsLeft_cons s u stack

/-! ## Order -/

/-- A way to go through graphs that can be moved to one root after the other. -/
structure Traversal where
  State : Type
  start : State
  /-- The nodes that it gives from this root until there are no more. -/
  walk : Graph → Nat → State → List Nat × State

def Traversal.walkAll (t : Traversal) (g : Graph) : List Nat → t.State → List Nat
  | [], _ => []
  | root :: roots, s =>
    let (nodes, s) := t.walk g root s
    nodes ++ t.walkAll g roots s

/-- The nodes in the order in which the traversal gives them from each node in turn. -/
def orderBy (t : Traversal) (g : Graph) : List Nat := t.walkAll g (List.range g.size) t.start

/-- The search from one root leaves alone what it has met from another. -/
def depthFirst : Traversal := ⟨Visited, .none, fun g root => search g [root]⟩

/--
The nodes so that each one follows all that it points at, but for what leads back to it. Roots are
taken in order.
-/
@[irreducible]
def dependencyOrder (g : Graph) : List Nat := g.orderBy depthFirst

end Graph

end Linkage
