import Linkage.Proofs.Build.Terms
import Linkage.Proofs.Graph.DepthFirst
import Mathlib.Data.List.Basic

/-!
# Linkage.Proofs.Build.Values

The pass over the constants.

* `represents_constGraph` — the graph of the constants stands for `DependsOn`.
* `Settled` — the invariant of evaluation: the constants dealt with have the values that their
  initializers have over these values, and nothing else has been said.
* `settled_evaluated` — the invariant holds of all constants in the end, whatever is wrong.
* `resolveConstsBy_orderBy` — any depth-first traversal will do.
* `noErrors_resolveConsts` — the pass finds no error exactly if all paths are found, there is no
  cycle and every initializer denotes a value.
-/

namespace Linkage
namespace Scope

variable {s : Scope}

/-! ## The graph of the constants -/

def AllFound (s : Scope) : Prop := ∀ c ∈ s.decls.constants, s.PathsFound c.decl.value

def terms (s : Scope) : List (Option Term) :=
  s.decls.constants.map fun c => (s.resolveExpr c.unit c.decl.value).1

theorem getElem?_terms {id : Nat} {t : Term} :
    s.terms[id]? = some (some t) ↔
      ∃ c, s.decls.constants[id]? = some c ∧ s.Resolves c.decl.value t := by
  rw [terms, List.getElem?_map, Option.map_eq_some_iff]
  refine exists_congr fun c => and_congr_right fun _ => ⟨resolves_of_resolveExpr, fun ht => ?_⟩
  rw [resolveExpr_of_resolves ht]

theorem edge_constGraph {terms : List (Option Term)} {u v : Nat} :
    (constGraph terms).Edge u v ↔ ∃ t, terms[u]? = some (some t) ∧ v ∈ t.dependencies := by
  unfold Graph.Edge constGraph
  simp only [List.mem_flatMap, Prod.exists, List.mem_zipIdx_iff_getElem?]
  constructor
  · rintro ⟨t, id, hid, he⟩
    split at he
    · rename_i t
      obtain ⟨v', hv, heq⟩ := List.mem_map.1 he
      cases heq
      exact ⟨t, hid, hv⟩
    · cases he
  · rintro ⟨t, hid, hv⟩
    exact ⟨some t, u, hid, List.mem_map_of_mem hv⟩

theorem edge_terms (h : s.contents.NamesSound) (hf : s.AllFound) {u v : Nat} :
    (constGraph s.terms).Edge u v ↔
      ∃ x y, s.decls.constants[u]? = some x ∧ s.decls.constants[v]? = some y ∧
        ∃ p ∈ x.decl.value.paths, s.contents.NamesOwn p y.decl := by
  rw [edge_constGraph]
  constructor
  · rintro ⟨t, ht, hv⟩
    obtain ⟨x, hx, hres⟩ := getElem?_terms.1 ht
    obtain ⟨p, hp, htarget⟩ := (mem_dependencies hres).1 hv
    obtain ⟨hl, hid⟩ := constTarget_eq_own.1 htarget
    obtain ⟨y, hy, -⟩ := (constId?_eq_some h).1 hid
    exact ⟨x, y, hx, hy, p, hp, (namesOwn_iff h).2 ⟨v, htarget, y, hy, rfl⟩⟩
  · rintro ⟨x, y, hx, hy, p, hp, hl, -, hn⟩
    obtain ⟨t, ht⟩ := exists_resolves (hf x (List.mem_of_getElem? hx))
    have htarget : (s.constTarget p).found = .ok (.own v) :=
      constTarget_eq_own.2 ⟨hl, (constId?_eq_some h).2 ⟨y, hy, hn⟩⟩
    exact ⟨t, getElem?_terms.2 ⟨x, hx, ht⟩, (mem_dependencies ht).2 ⟨p, hp, htarget⟩⟩

theorem size_constGraph (s : Scope) : (constGraph s.terms).size = s.decls.constants.length := by
  simp [constGraph, terms]

theorem inRange_constGraph (s : Scope) : (constGraph s.terms).InRange where
  source := by
    intro u v he
    obtain ⟨t, ht, -⟩ := edge_constGraph.1 he
    obtain ⟨c, hc, -⟩ := getElem?_terms.1 ht
    rw [size_constGraph]
    exact (List.getElem?_eq_some_iff.1 hc).1
  target := by
    intro u v he
    obtain ⟨t, ht, hv⟩ := edge_constGraph.1 he
    obtain ⟨c, -, hres⟩ := getElem?_terms.1 ht
    obtain ⟨p, -, htarget⟩ := (mem_dependencies hres).1 hv
    rw [size_constGraph]
    exact (List.findIdx?_eq_some_iff_getElem.1 (constTarget_eq_own.1 htarget).2).1

/-- The constants that depend on themselves. -/
def cyclic (s : Scope) : List Nat := (constGraph s.terms).cycles.flatten

theorem contains_cyclic {id : Nat} :
    s.cyclic.contains id = true ↔ (constGraph s.terms).Reaches id id := by
  rw [List.contains_iff_mem]
  exact Graph.mem_flatten_cycles s.inRange_constGraph

theorem constName_eq {id : Nat} {c : Declared Script.ConstDecl}
    (hc : s.decls.constants[id]? = some c) : s.constName id = c.decl.name.name := by
  simp only [constName, hc]

theorem represents_constGraph (h : s.contents.NamesSound) (hf : s.AllFound) :
    (constGraph s.terms).Represents s.constName s.contents.DependsOn := by
  refine Graph.represents_of_edges (nodup_constNames h) s.size_constGraph
    (fun u c hc => constName_eq hc) (fun u v => edge_terms h hf) fun n m => ?_
  constructor
  · rintro ⟨c, hc, rfl, p, hp, c', hnames, rfl⟩
    obtain ⟨x, hx, rfl⟩ := List.mem_map.1 hc
    obtain ⟨y, hy, rfl⟩ := List.mem_map.1 hnames.declared
    exact ⟨x, hx, y, hy, rfl, rfl, p, hp, hnames⟩
  · rintro ⟨x, hx, y, hy, rfl, rfl, p, hp, hnames⟩
    exact ⟨x.decl, List.mem_map_of_mem hx, rfl, p, hp, y.decl, hnames, rfl⟩

/-! ## Evaluation -/

/-- The values that have been found. -/
def known (values : Array (Option Value)) (id : Nat) : Option Value := values[id]?.join

/--
What evaluating one constant over these values gives. One that is on a cycle or has a path that
leads nowhere is not evaluated.
-/
def outcome (s : Scope) (values : Nat → Option Value) (id : Nat) :
    Option Value × List Diagnostic :=
  match s.terms[id]?.join, s.decls.constants[id]? with
  | some t, some c =>
    if s.cyclic.contains id then (none, []) else t.eval s.snapshot values c.unit
  | _, _ => (none, [])

theorem outcome_eq {id : Nat} {c : Declared Script.ConstDecl} {t : Term}
    (hn : ¬ (constGraph s.terms).Reaches id id) (hc : s.decls.constants[id]? = some c)
    (ht : s.Resolves c.decl.value t) (values : Nat → Option Value) :
    s.outcome values id = t.eval s.snapshot values c.unit := by
  have hnot : ¬ s.cyclic.contains id = true := fun h => hn (contains_cyclic.1 h)
  simp only [outcome, getElem?_terms.2 ⟨c, hc, ht⟩, hc, Option.join_some, if_neg hnot]

theorem outcome_of_cyclic {id : Nat} (h : (constGraph s.terms).Reaches id id)
    (values : Nat → Option Value) : s.outcome values id = (none, []) := by
  unfold outcome
  split
  · rw [if_pos (contains_cyclic.2 h)]
  · rfl

theorem outcome_congr {values others : Nat → Option Value} {id : Nat}
    (h : ¬ (constGraph s.terms).Reaches id id →
      ∀ j, (constGraph s.terms).Edge id j → values j = others j) :
    s.outcome values id = s.outcome others id := by
  by_cases hcyclic : (constGraph s.terms).Reaches id id
  · rw [outcome_of_cyclic hcyclic, outcome_of_cyclic hcyclic]
  · unfold outcome
    split
    · rename_i t c ht hc
      rw [Term.eval_congr fun j hj => h hcyclic j (edge_constGraph.2 ⟨t, ?_, hj⟩)]
      exact Option.join_eq_some_iff.1 ht
    · rfl

/-- Those dealt with have their outcomes, and no one else has a value yet. -/
structure Settled (s : Scope) (done : List Nat)
    (state : Array (Option Value) × List Diagnostic) : Prop where
  size : state.1.size = s.decls.constants.length
  values : ∀ id ∈ done, known state.1 id = (s.outcome (known state.1) id).1
  others : ∀ id, id ∉ done → known state.1 id = none
  diagnostics : state.2 = done.flatMap fun id => (s.outcome (known state.1) id).2

theorem known_setIfInBounds {values : Array (Option Value)} {id : Nat} (hid : id < values.size)
    (v : Option Value) (j : Nat) :
    known (values.setIfInBounds id v) j = if j = id then v else known values j := by
  unfold known
  rw [Array.getElem?_setIfInBounds]
  by_cases hj : id = j
  · subst hj
    simp [hid]
  · simp [hj, Ne.symm hj]

theorem evalConst_eq {state : Array (Option Value) × List Diagnostic} {id : Nat}
    (hid : id < state.1.size) (hnew : known state.1 id = none) :
    (s.evalConst s.terms.toArray s.cyclic state id).1.size = state.1.size ∧
      (∀ j, known (s.evalConst s.terms.toArray s.cyclic state id).1 j =
        if j = id then (s.outcome (known state.1) id).1 else known state.1 j) ∧
      (s.evalConst s.terms.toArray s.cyclic state id).2 =
        state.2 ++ (s.outcome (known state.1) id).2 := by
  have hsame (j : Nat) : known state.1 j = if j = id then none else known state.1 j := by
    split
    · rename_i hj
      rw [hj, hnew]
    · rfl
  unfold evalConst
  rw [List.getElem?_toArray]
  split
  · rename_i t c ht hc
    have houtcome : s.outcome (known state.1) id =
        if s.cyclic.contains id then (none, []) else t.eval s.snapshot (known state.1) c.unit := by
      simp only [outcome, ht, hc]
    rw [houtcome]
    split
    · exact ⟨rfl, hsame, (List.append_nil _).symm⟩
    · exact ⟨Array.size_setIfInBounds, known_setIfInBounds hid _, rfl⟩
  · rename_i hnone
    have houtcome : s.outcome (known state.1) id = (none, []) := by
      unfold outcome
      split
      · rename_i t c ht hc
        exact absurd hc (hnone t c ht)
      · rfl
    rw [houtcome]
    exact ⟨rfl, hsame, (List.append_nil _).symm⟩

/--
One more constant. Those that are evaluated come after all they depend on, so that the values they
were computed from stay as they are.
-/
theorem Settled.evalConst {done : List Nat} {state : Array (Option Value) × List Diagnostic}
    (h : s.Settled done state) {id : Nat} (hid : id < s.decls.constants.length) (hnew : id ∉ done)
    (hafter : ∀ i ∈ done ++ [id], ¬ (constGraph s.terms).Reaches i i →
      ∀ j, (constGraph s.terms).Edge i j → j ∈ done) :
    s.Settled (done ++ [id]) (s.evalConst s.terms.toArray s.cyclic state id) := by
  obtain ⟨hsize, hknown, hsaid⟩ := evalConst_eq (h.size.symm ▸ hid) (h.others id hnew)
  let next := s.evalConst s.terms.toArray s.cyclic state id
  have hkeep : ∀ j ∈ done, known next.1 j = known state.1 j := by
    intro j hj
    rw [hknown, if_neg]
    rintro rfl
    exact hnew hj
  have houtcome : ∀ i ∈ done ++ [id],
      s.outcome (known next.1) i = s.outcome (known state.1) i :=
    fun i hi => outcome_congr fun hn j hj => hkeep j (hafter i hi hn j hj)
  constructor
  case size => exact hsize.trans h.size
  case values =>
    intro i hi
    show known next.1 i = (s.outcome (known next.1) i).1
    rw [houtcome i hi]
    rcases List.mem_append.1 hi with hi | hi
    · rw [hkeep i hi]
      exact h.values i hi
    · obtain rfl := List.mem_singleton.1 hi
      rw [hknown, if_pos rfl]
  case others =>
    intro i hi
    rw [List.mem_append, not_or, List.mem_singleton] at hi
    rw [hknown, if_neg hi.2]
    exact h.others i hi.1
  case diagnostics =>
    show next.2 = (done ++ [id]).flatMap fun i => (s.outcome (known next.1) i).2
    rw [List.flatMap_congr fun i hi => congrArg Prod.snd (houtcome i hi), List.flatMap_append,
      List.flatMap_singleton, ← h.diagnostics]
    exact hsaid

theorem settled_nil (s : Scope) : s.Settled [] (Array.replicate s.terms.length none, []) where
  size := by simp [terms]
  values := fun _ h => nomatch h
  others := by
    intro id _
    unfold known
    rw [Array.getElem?_replicate]
    split <;> rfl
  diagnostics := rfl

/-- The order in which a depth-first search leaves the graph of the constants. -/
abbrev LeftIn (s : Scope) (order : List Nat) : Prop :=
  (constGraph s.terms).PostOrder ∅ (List.range (constGraph s.terms).size) order

theorem settled_foldl {order : List Nat} (horder : s.LeftIn order) (rest : List Nat) :
    ∀ done state, done ++ rest = order → s.Settled done state →
      s.Settled order (rest.foldl (s.evalConst s.terms.toArray s.cyclic) state) := by
  induction rest with
  | nil =>
    intro done state heq hd
    rwa [← heq, List.append_nil]
  | cons id rest ih =>
    intro done state heq hd
    have hperm := horder.perm_range s.inRange_constGraph
    have hmem : id ∈ order := by simp [← heq]
    have hid : id < s.decls.constants.length := by
      have := List.mem_range.1 (hperm.mem_iff.1 hmem)
      rwa [size_constGraph] at this
    have hnew : id ∉ done := by
      have hnodup := horder.nodup
      rw [← heq] at hnodup
      exact fun hd => (List.nodup_append.1 hnodup).2.2 id hd id List.mem_cons_self rfl
    have hafter : ∀ i ∈ done ++ [id], ¬ (constGraph s.terms).Reaches i i →
        ∀ j, (constGraph s.terms).Edge i j → j ∈ done := by
      intro i hi hn j hj
      rcases List.mem_append.1 hi with hi | hi
      · obtain ⟨before, after, rfl⟩ := List.append_of_mem hi
        have heq' : order = before ++ i :: (after ++ id :: rest) := by
          rw [← heq]
          simp
        exact List.mem_append_left _
          (horder.mem_of_eq_append s.inRange_constGraph hn heq' hj)
      · obtain rfl := List.mem_singleton.1 hi
        exact horder.mem_of_eq_append s.inRange_constGraph hn heq.symm hj
    exact ih (done ++ [id]) _ (by rw [← heq]; simp) (hd.evalConst hid hnew hafter)

theorem settled_evalConsts {order : List Nat} (horder : s.LeftIn order) :
    s.Settled order (s.evalConsts s.terms s.cyclic order) :=
  settled_foldl horder _ [] _ rfl s.settled_nil

/-! ## The whole pass -/

def evaluated (s : Scope) : Array (Option Value) × List Diagnostic :=
  s.evalConsts s.terms s.cyclic (constGraph s.terms).dependencyOrder

theorem resolveConstsBy_eq (order : Graph → List Nat) (s : Scope) :
    s.resolveConstsBy order =
      ⟨List.zipWith ResolvedConst.mk s.terms
          (s.evalConsts s.terms s.cyclic (order (constGraph s.terms))).1.toList,
        s.decls.constants.flatMap (fun c => (s.resolveExpr c.unit c.decl.value).2) ++
          (constGraph s.terms).cycles.flatMap s.reportConstCycle ++
            (s.evalConsts s.terms s.cyclic (order (constGraph s.terms))).2,
        s.decls.constants.flatMap fun c => (s.resolveExpr c.unit c.decl.value).modules⟩ := by
  have hterms : (s.decls.constants.map fun c => s.resolveExpr c.unit c.decl.value).map
      Pass.result = s.terms := List.map_map
  simp only [resolveConstsBy, hterms, List.flatMap_map, cyclic]

theorem resolveConsts_eq (s : Scope) :
    s.resolveConsts =
      ⟨List.zipWith ResolvedConst.mk s.terms s.evaluated.1.toList,
        s.decls.constants.flatMap (fun c => (s.resolveExpr c.unit c.decl.value).2) ++
          (constGraph s.terms).cycles.flatMap s.reportConstCycle ++ s.evaluated.2,
        s.decls.constants.flatMap fun c => (s.resolveExpr c.unit c.decl.value).modules⟩ :=
  s.resolveConstsBy_eq Graph.dependencyOrder

theorem settled_evaluated (s : Scope) :
    s.Settled (constGraph s.terms).dependencyOrder s.evaluated :=
  settled_evalConsts (constGraph s.terms).postOrder_dependencyOrder

/-- By induction on the place in one order, where a constant comes after its dependencies. -/
theorem Settled.known_eq {order order' : List Nat}
    {state state' : Array (Option Value) × List Diagnostic} (h : s.Settled order state)
    (h' : s.Settled order' state') (horder : s.LeftIn order) (horder' : s.LeftIn order') :
    known state.1 = known state'.1 := by
  have hrange := s.inRange_constGraph
  have hperm : order.Perm order' :=
    (horder.perm_range hrange).trans (horder'.perm_range hrange).symm
  have hplace (n : Nat) : ∀ id ∈ order, order.idxOf id = n →
      known state.1 id = known state'.1 id := by
    induction n using Nat.strongRecOn with
    | ind n ih =>
      rintro id hid rfl
      rw [h.values id hid, h'.values id (hperm.mem_iff.1 hid)]
      refine congrArg Prod.fst (outcome_congr fun hn j he => ih _ ?_ j ?_ rfl)
      · exact horder.idxOf_lt hid (horder.mem_of_edge hrange he) he fun hback => hn (hback.head he)
      · exact horder.mem_of_edge hrange he
  funext id
  by_cases hid : id ∈ order
  · exact hplace _ id hid rfl
  · rw [h.others id hid, h'.others id fun hid' => hid (hperm.mem_iff.2 hid')]

theorem eq_of_known_eq {values values' : Array (Option Value)} (hsize : values.size = values'.size)
    (h : known values = known values') : values = values' := by
  refine Array.ext hsize fun id hid hid' => ?_
  have hknown := congrFun h id
  simpa only [known, Array.getElem?_eq_getElem hid, Array.getElem?_eq_getElem hid',
    Option.join_some] using hknown

/--
Along whatever depth-first traversal the constants are evaluated, they get the same values, and the
same is said about them.
-/
theorem resolveConstsBy_orderBy (s : Scope) {t : Graph.Traversal} {met : t.State → Set Nat → Prop}
    (ht : t.DepthFirst met) :
    (s.resolveConstsBy (Graph.orderBy t)).result = s.resolveConsts.result ∧
      (s.resolveConstsBy (Graph.orderBy t)).diagnostics.Perm s.resolveConsts.diagnostics ∧
      (s.resolveConstsBy (Graph.orderBy t)).modules = s.resolveConsts.modules := by
  have horder : s.LeftIn ((constGraph s.terms).orderBy t) := Graph.postOrder_orderBy ht _
  have horder' : s.LeftIn (constGraph s.terms).dependencyOrder :=
    (constGraph s.terms).postOrder_dependencyOrder
  have h := settled_evalConsts horder
  have h' := s.settled_evaluated
  have hknown := h.known_eq h' horder horder'
  rw [resolveConstsBy_eq, resolveConsts_eq]
  refine ⟨?_, ?_, rfl⟩
  · rw [eq_of_known_eq (h.size.trans h'.size.symm) hknown]
  · have hperm := (horder.perm_range s.inRange_constGraph).trans
      (horder'.perm_range s.inRange_constGraph).symm
    rw [h.diagnostics, h'.diagnostics, hknown]
    exact (hperm.flatMap_right _).append_left _

theorem mem_dependencyOrder {id : Nat} {c : Declared Script.ConstDecl}
    (hc : s.decls.constants[id]? = some c) : id ∈ (constGraph s.terms).dependencyOrder := by
  refine (Graph.dependencyOrder_perm s.inRange_constGraph).mem_iff.2 (List.mem_range.2 ?_)
  rw [size_constGraph]
  exact (List.getElem?_eq_some_iff.1 hc).1

theorem known_evaluated {id : Nat} {c : Declared Script.ConstDecl} {t : Term}
    (hn : ¬ (constGraph s.terms).Reaches id id) (hc : s.decls.constants[id]? = some c)
    (ht : s.Resolves c.decl.value t) :
    known s.evaluated.1 id = (t.eval s.snapshot (known s.evaluated.1) c.unit).1 := by
  rw [← outcome_eq hn hc ht]
  exact s.settled_evaluated.values id (mem_dependencyOrder hc)

/-! ## Values and denotations -/

variable {values : Nat → Option Value}

/-- The values of the constants are those of their initializers over these values. -/
def Consistent (s : Scope) (values : Nat → Option Value) : Prop :=
  ∀ id c t, s.decls.constants[id]? = some c → s.Resolves c.decl.value t →
    values id = (t.eval s.snapshot values c.unit).1

theorem eval_of_denotes (h : s.contents.NamesSound) (hf : s.AllFound) (hv : s.Consistent values)
    {e : Script.Expr} {v : Value} (hd : s.contents.Denotes e v) :
    ∀ {t : Term} {unit : Nat}, s.Resolves e t → (t.eval s.snapshot values unit).1 = some v := by
  induction hd with
  | literal =>
    intro t unit ht
    cases ht
    rfl
  | own hnames _ ih =>
    intro t unit ht
    obtain ⟨id, htarget, x, hx, rfl⟩ := (namesOwn_iff h).1 hnames
    obtain ⟨u, hu⟩ := exists_resolves (hf x (List.mem_of_getElem? hx))
    cases ht with
    | own ht =>
      rw [htarget] at ht
      cases ht
      exact (hv _ x u hx hu).trans (ih hu)
    | imported ht =>
      rw [htarget] at ht
      cases ht
  | imported hnames hval =>
    intro t unit ht
    have htarget := constTarget_eq_imported.2 hnames
    cases ht with
    | own ht =>
      rw [htarget] at ht
      cases ht
    | imported ht =>
      rw [htarget] at ht
      cases ht
      exact Term.eval_imported_eq_some.2 hval
  | negate _ hneg ih =>
    intro t unit ht
    cases ht with
    | negate ht => exact Term.eval_negate_eq_some.2 ⟨_, ih ht, hneg⟩
  | binary _ _ happly ihl ihr =>
    intro t unit ht
    cases ht with
    | binary hl hr => exact Term.eval_binary_eq_some.2 ⟨_, _, ihl hl, ihr hr, happly⟩

theorem denotes_of_eval (h : s.contents.NamesSound) {e : Script.Expr} {t : Term}
    (ht : s.Resolves e t) {unit : Nat}
    (hd : ∀ j ∈ t.dependencies, ∀ c w, s.decls.constants[j]? = some c → values j = some w →
      s.contents.Denotes c.decl.value w) :
    ∀ {v : Value}, (t.eval s.snapshot values unit).1 = some v → s.contents.Denotes e v := by
  induction ht with
  | literal =>
    intro v hv
    cases hv
    exact .literal
  | own htarget =>
    intro v hv
    obtain ⟨hl, hid⟩ := constTarget_eq_own.1 htarget
    obtain ⟨c, hc, hn⟩ := (constId?_eq_some h).1 hid
    exact .own ((namesOwn_iff h).2 ⟨_, htarget, c, hc, rfl⟩) (hd _ List.mem_cons_self c v hc hv)
  | imported htarget =>
    intro v hv
    exact .imported (constTarget_eq_imported.1 htarget) (Term.eval_imported_eq_some.1 hv)
  | negate _ ih =>
    intro w hw
    obtain ⟨v, hv, hneg⟩ := Term.eval_negate_eq_some.1 hw
    exact .negate (ih hd hv) hneg
  | binary _ _ ihl ihr =>
    intro x hx
    obtain ⟨v, w, hv, hw, happly⟩ := Term.eval_binary_eq_some.1 hx
    exact .binary (ihl (fun j hj => hd j (List.mem_append_left _ hj)) hv)
      (ihr (fun j hj => hd j (List.mem_append_right _ hj)) hw) happly

/-- By induction on dependencies, which form no cycle. -/
theorem denotes_of_value (h : s.contents.NamesSound) (hf : s.AllFound)
    (hn : ∀ u, ¬ (constGraph s.terms).Reaches u u) (hv : s.Consistent values) (id : Nat) :
    ∀ c w, s.decls.constants[id]? = some c → values id = some w →
      s.contents.Denotes c.decl.value w := by
  induction id using Graph.induction_of_acyclic (represents_constGraph h hf).inRange hn with
  | step id ih =>
    intro c w hc hw
    obtain ⟨t, ht⟩ := exists_resolves (hf c (List.mem_of_getElem? hc))
    rw [hv id c t hc ht] at hw
    refine denotes_of_eval h ht (fun j hj => ih j ?_) hw
    exact edge_constGraph.2 ⟨t, getElem?_terms.2 ⟨c, hc, ht⟩, hj⟩

/-! ## Errors -/

theorem pathsFound_iff (h : s.contents.NamesSound) {e : Script.Expr} :
    s.PathsFound e ↔ ∀ p ∈ e.paths,
      (∃ c, s.contents.NamesOwn p c) ∨ ∃ m c, s.contents.NamesImported p m c := by
  refine forall₂_congr fun p _ => ?_
  constructor
  · rintro ⟨target, ht⟩
    cases target with
    | own id =>
      obtain ⟨-, hid⟩ := constTarget_eq_own.1 ht
      obtain ⟨c, hc, -⟩ := (constId?_eq_some h).1 hid
      exact .inl ⟨c.decl, (namesOwn_iff h).2 ⟨id, ht, c, hc, rfl⟩⟩
    | imported m c => exact .inr ⟨m, c, constTarget_eq_imported.1 ht⟩
  · rintro (⟨c, hc⟩ | ⟨m, c, hc⟩)
    · obtain ⟨id, ht, -⟩ := (namesOwn_iff h).1 hc
      exact ⟨_, ht⟩
    · exact ⟨_, constTarget_eq_imported.2 hc⟩

theorem reportConstCycle_cons {u : Nat} (hu : u < s.decls.constants.length) (rest : List Nat) :
    ∃ d, s.reportConstCycle (u :: rest) = [d] ∧ d.isError = true := by
  simp only [reportConstCycle, List.getElem?_eq_getElem hu]
  refine ⟨_, rfl, ?_⟩
  cases rest <;> rfl

theorem allErrors_outcome (id : Nat) : AllErrors (s.outcome values id).2 := by
  unfold outcome
  split
  · split
    · exact allErrors_nil
    · exact Term.allErrors_eval _
  · exact allErrors_nil

/-- A constant without a value has an error to show for it. -/
theorem noErrors_values (h : s.contents.NamesSound) (hf : s.AllFound)
    (hn : ∀ u, ¬ (constGraph s.terms).Reaches u u) :
    NoErrors s.evaluated.2 ↔ ∀ c ∈ s.contents.consts, ∃ v, s.contents.Denotes c.value v := by
  have hconsistent : s.Consistent (known s.evaluated.1) :=
    fun id c t hc ht => known_evaluated (hn id) hc ht
  rw [s.settled_evaluated.diagnostics,
    (allErrors_flatMap fun id _ => allErrors_outcome id).noErrors_iff, List.flatMap_eq_nil_iff]
  constructor
  · intro hsilent
    have hsome (id : Nat) : ∀ c, s.decls.constants[id]? = some c →
        (known s.evaluated.1 id).isSome = true := by
      induction id using Graph.induction_of_acyclic (represents_constGraph h hf).inRange hn with
      | step id ih =>
        intro c hc
        obtain ⟨t, ht⟩ := exists_resolves (hf c (List.mem_of_getElem? hc))
        have hterm := getElem?_terms.2 ⟨c, hc, ht⟩
        rw [hconsistent id c t hc ht]
        refine Term.isSome_of_eval_eq_nil (fun j hj => ?_) ?_
        · have he := edge_constGraph.2 ⟨t, hterm, hj⟩
          obtain ⟨x, y, -, hy, -⟩ := (edge_terms h hf).1 he
          exact ih j he y hy
        · rw [← outcome_eq (hn id) hc ht]
          exact hsilent id (mem_dependencyOrder hc)
    intro c hc
    obtain ⟨id, x, hx, rfl⟩ := mem_consts_iff.1 hc
    obtain ⟨v, hv⟩ := Option.isSome_iff_exists.1 (hsome id x hx)
    exact ⟨v, denotes_of_value h hf hn hconsistent id x v hx hv⟩
  · intro hall id hid
    have hlt := List.mem_range.1 ((Graph.dependencyOrder_perm s.inRange_constGraph).mem_iff.1 hid)
    rw [size_constGraph] at hlt
    have hc := List.getElem?_eq_getElem hlt
    obtain ⟨v, hv⟩ := hall _ (mem_consts_iff.2 ⟨id, _, hc, rfl⟩)
    obtain ⟨t, ht⟩ := exists_resolves (hf _ (List.mem_of_getElem? hc))
    rw [outcome_eq (hn id) hc ht]
    exact Term.eval_eq_nil_of_isSome
      (Option.isSome_iff_exists.2 ⟨v, eval_of_denotes h hf hconsistent hv ht⟩)

theorem allErrors_resolveConsts (s : Scope) : AllErrors s.resolveConsts.2 := by
  rw [resolveConsts_eq, allErrors_append, allErrors_append, s.settled_evaluated.diagnostics]
  refine ⟨⟨allErrors_flatMap fun c _ => allErrors_resolveExpr _ _,
    allErrors_flatMap fun cycle _ => ?_⟩, allErrors_flatMap fun id _ => allErrors_outcome id⟩
  unfold reportConstCycle
  split
  · exact allErrors_nil
  · split
    · exact allErrors_nil
    · exact allErrors_singleton rfl _ _

theorem noErrors_resolveConsts (h : s.contents.NamesSound) :
    NoErrors s.resolveConsts.2 ↔
      (∀ c ∈ s.contents.consts, ∀ p ∈ c.value.paths,
        (∃ c', s.contents.NamesOwn p c') ∨ ∃ m c', s.contents.NamesImported p m c') ∧
      (∀ n, ¬ Relation.TransGen s.contents.DependsOn n n) ∧
        ∀ c ∈ s.contents.consts, ∃ v, s.contents.Denotes c.value v := by
  have hfound : s.AllFound ↔ ∀ c ∈ s.contents.consts, ∀ p ∈ c.value.paths,
      (∃ c', s.contents.NamesOwn p c') ∨ ∃ m c', s.contents.NamesImported p m c' := by
    rw [contents, List.forall_mem_map]
    exact forall₂_congr fun c _ => pathsFound_iff h
  have hpaths : NoErrors (s.decls.constants.flatMap fun c =>
      (s.resolveExpr c.unit c.decl.value).2) ↔ s.AllFound := by
    rw [(allErrors_flatMap fun c _ => allErrors_resolveExpr _ _).noErrors_iff,
      List.flatMap_eq_nil_iff]
    exact forall₂_congr fun c _ => resolveExpr_eq_nil
  have hcycles : NoErrors ((constGraph s.terms).cycles.flatMap s.reportConstCycle) ↔
      (constGraph s.terms).cycles = [] :=
    noErrors_cycles fun u hu rest => reportConstCycle_cons (s.size_constGraph ▸ hu) rest
  rw [resolveConsts_eq, noErrors_append, noErrors_append, hpaths, hcycles, ← hfound, and_assoc]
  refine and_congr_right fun hf => ?_
  have hrep := represents_constGraph h hf
  rw [Graph.cycles_eq_nil hrep.inRange, ← hrep.acyclic_iff]
  exact and_congr_right fun hn => noErrors_values h hf hn

end Scope
end Linkage
