import Linkage.Proofs.Build.Resolution
import Linkage.Proofs.Ring
import Mathlib.Data.List.Perm.Subperm

/-!
# Linkage.Proofs.Build.BaseCycles

Cycles of inheritance are reported once each.

* `Accepts` — one type of the module extends another, and nothing forbids it.
* `edge_iff_accepts` — that is what the graph of the bases has edges for, whatever else is wrong.
* `baseChain_of_route` — the walk that collects the names of a cycle ends of its own accord.
* `Marked` — the pass has marked a type as one that lies on a cycle.
* `resolveTypes_cycles` — the diagnostics about cycles are one for each ring of accepted bases, and
  the types on these rings are the ones that are marked.
-/

namespace Linkage
namespace Scope

variable {s : Scope}

/-! ## Accepted bases -/

/-- The type at `u` extends the type at `v`, which is not sealed. -/
def Accepts (s : Scope) (u v : Nat) : Prop :=
  ∃ t b p, s.decls.types[u]? = some t ∧ s.decls.types[v]? = some b ∧ t.decl.base = some p ∧
    s.contents.NamesType p (.own b.decl.name.name) ∧ b.decl.modifiers.isSealed = false

theorem resolveBase_accepts (h : s.contents.NamesSound) {unit : Nat} {t : Script.TypeDecl}
    {r : TypeRef} :
    (s.resolveBase unit t).1 = some r ↔
      ∃ p, t.base = some p ∧ s.contents.NamesType p r ∧ s.contents.Extensible r := by
  unfold resolveBase
  cases hb : t.base with
  | none => simp
  | some p =>
    simp only [Option.some.injEq, exists_eq_left']
    cases hr : (s.typeRef p).found with
    | error e =>
      refine iff_of_false nofun ?_
      rintro ⟨hnames, -⟩
      rw [(typeRef_eq_ok h).2 hnames] at hr
      cases hr
    | ok base =>
      have hbase := (typeRef_eq_ok h).1 hr
      have hsame : s.contents.NamesType p r ↔ base = r := by
        rw [← typeRef_eq_ok h, hr, Except.ok.injEq]
      dsimp only
      cases hrefusal : s.baseRefusal? t.name.name p base with
      | some problem =>
        refine iff_of_false nofun ?_
        rintro ⟨hnames, hext⟩
        obtain rfl := hsame.1 hnames
        rw [baseRefusal?_eq_none.2 hext] at hrefusal
        cases hrefusal
      | none =>
        dsimp only
        rw [Option.some.injEq, hsame]
        exact (and_iff_left_of_imp fun heq => heq ▸ baseRefusal?_eq_none.1 hrefusal).symm

theorem extensible_own (h : s.contents.NamesSound) {v : Nat} {b : Declared Script.TypeDecl}
    (hb : s.decls.types[v]? = some b) :
    s.contents.Extensible (.own b.decl.name.name) ↔ b.decl.modifiers.isSealed = false := by
  have hmem : b.decl ∈ s.contents.types := mem_types_iff.2 ⟨v, b, hb, rfl⟩
  constructor
  · exact fun hext => hext b.decl hmem rfl
  · intro hsealed t ht hname
    rwa [List.inj_on_of_nodup_map h.types ht hmem hname]

/-- A base that is refused is no edge of the graph. -/
theorem edge_iff_accepts (h : s.contents.NamesSound) {u v : Nat} :
    (s.baseGraph s.resolvedTypes).Edge u v ↔ s.Accepts u v := by
  rw [edge_baseGraph]
  simp only [resolvedTypes, List.getElem?_map, Option.map_eq_some_iff]
  constructor
  · rintro ⟨_, ⟨t, ht, rfl⟩, hbase⟩
    unfold baseId? at hbase
    split at hbase
    · rename_i n hn
      obtain ⟨b, hb, rfl⟩ := (typeId?_eq_some h).1 hbase
      obtain ⟨p, hp, hnames, hext⟩ := (resolveBase_accepts h).1 hn
      exact ⟨t, b, p, ht, hb, hp, hnames, (extensible_own h hb).1 hext⟩
    · cases hbase
  · rintro ⟨t, b, p, ht, hb, hp, hnames, hsealed⟩
    refine ⟨_, ⟨t, ht, rfl⟩, ?_⟩
    have hn : (s.resolveType t).1.base = some (.own b.decl.name.name) :=
      (resolveBase_accepts h).2 ⟨p, hp, hnames, (extensible_own h hb).2 hsealed⟩
    rw [baseId?, hn]
    exact (typeId?_eq_some h).2 ⟨b, hb, rfl⟩

theorem edge_eq_accepts (h : s.contents.NamesSound) :
    (s.baseGraph s.resolvedTypes).Edge = s.Accepts :=
  funext₂ fun _ _ => propext (edge_iff_accepts h)

/-- Every type has one base. -/
theorem rightUnique_baseGraph (types : List ResolvedType) :
    Relator.RightUnique (s.baseGraph types).Edge := by
  intro u v w huv huw
  obtain ⟨t, ht, hv⟩ := edge_baseGraph.1 huv
  obtain ⟨t', ht', hw⟩ := edge_baseGraph.1 huw
  obtain rfl := Option.some_inj.1 (ht.symm.trans ht')
  exact Option.some_inj.1 (hv.symm.trans hw)

theorem size_baseGraph (s : Scope) :
    (s.baseGraph s.resolvedTypes).size = s.decls.types.length := by
  simp [baseGraph, resolvedTypes]

theorem inRange_baseGraph (h : s.contents.NamesSound) :
    (s.baseGraph s.resolvedTypes).InRange := by
  constructor
  · intro u v he
    obtain ⟨t, b, p, ht, -⟩ := (edge_iff_accepts h).1 he
    exact s.size_baseGraph ▸ (List.getElem?_eq_some_iff.1 ht).1
  · intro u v he
    obtain ⟨t, b, p, -, hb, -⟩ := (edge_iff_accepts h).1 he
    exact s.size_baseGraph ▸ (List.getElem?_eq_some_iff.1 hb).1

/-! ## The walk along the bases -/

/-- By induction on what is passed before the goal: the walk passes it as well, if it may. -/
theorem baseChain_of_route {types : List ResolvedType} {goal u : Nat} {way : List Nat} {n : Nat}
    (h : Graph.Route (s.baseGraph types).Edge goal u way) (hn : way.length < n) :
    s.baseChain types goal n u = way.map s.typeName ++ [s.typeName goal] := by
  induction way generalizing u n with
  | nil =>
    obtain ⟨n, rfl⟩ := Nat.exists_eq_add_one_of_ne_zero (Nat.ne_zero_of_lt hn)
    obtain ⟨t, ht, hbase⟩ := edge_baseGraph.1 (Graph.route_nil.1 h)
    simp only [baseChain, ht, Option.bind_some, hbase, if_true, List.map_nil, List.nil_append]
  | cons v way ih =>
    obtain ⟨n, rfl⟩ := Nat.exists_eq_add_one_of_ne_zero (Nat.ne_zero_of_lt hn)
    obtain ⟨huv, hne, hway⟩ := Graph.route_cons.1 h
    obtain ⟨t, ht, hbase⟩ := edge_baseGraph.1 huv
    simp only [baseChain, ht, Option.bind_some, hbase, if_neg hne,
      ih hway (Nat.lt_of_succ_lt_succ hn), List.map_cons, List.cons_append]

/-- A ring is not longer than the list of the types. -/
theorem length_ring_le (h : s.contents.NamesSound) {ring : List Nat}
    (hring : Graph.Ring s.Accepts ring) : ring.length ≤ s.decls.types.length := by
  cases ring with
  | nil => exact hring.elim
  | cons start rest =>
    have hroute := hring.route
    rw [← edge_eq_accepts h] at hroute
    have hsub : start :: rest ⊆ List.range s.decls.types.length := by
      intro v hv
      have hlinked := (Graph.mem_route_iff (rightUnique_baseGraph _) hroute).1 hv
      rw [List.mem_range, ← size_baseGraph]
      exact hlinked.1.target_lt (inRange_baseGraph h)
    have hle := (List.Nodup.subperm hring.2.1 hsub).length_le
    rwa [List.length_range] at hle

theorem baseChain_of_ring (h : s.contents.NamesSound) {start : Nat} {rest : List Nat}
    (hring : Graph.Ring s.Accepts (start :: rest)) {n : Nat} (hn : s.decls.types.length ≤ n) :
    s.baseChain s.resolvedTypes start n start = rest.map s.typeName ++ [s.typeName start] := by
  have hroute := hring.route
  rw [← edge_eq_accepts h] at hroute
  exact baseChain_of_route hroute (Nat.lt_of_lt_of_le (length_ring_le h hring) hn)

theorem baseChain_markCyclic (cyclic : List Nat) (types : List ResolvedType) (start n : Nat) :
    ∀ id, s.baseChain (markCyclic cyclic types) start n id = s.baseChain types start n id := by
  induction n with
  | zero => exact fun _ => rfl
  | succ n ih =>
    intro id
    simp only [baseChain, bind_markCyclic, ih]

/-! ## Marks -/

/-- The pass over the types has marked the type at `u`. -/
def Marked (s : Scope) (u : Nat) : Prop :=
  ∃ t, s.resolveTypes.result[u]? = some t ∧ t.inCycle = true

theorem marked_iff (h : s.contents.NamesSound) {u : Nat} :
    s.Marked u ↔ Relation.TransGen s.Accepts u u := by
  have hrange := inRange_baseGraph h
  have hcyclic : (s.baseGraph s.resolvedTypes).cycles.flatten.contains u = true ↔
      Relation.TransGen s.Accepts u u := by
    rw [List.contains_iff_mem, Graph.mem_flatten_cycles hrange, Graph.Reaches, edge_eq_accepts h]
  rw [Marked, resolveTypes_eq, markedTypes, getElem?_markCyclic, ← hcyclic]
  constructor
  · rintro ⟨t, ht, hmark⟩
    obtain ⟨r, hr, rfl⟩ := Option.map_eq_some_iff.1 ht
    split at hmark
    · assumption
    · -- nothing is marked before the cycles are known
      rw [resolvedTypes, List.getElem?_map] at hr
      obtain ⟨d, -, rfl⟩ := Option.map_eq_some_iff.1 hr
      cases hmark
  · intro hu
    have hlt : u < s.resolvedTypes.length :=
      ((Graph.mem_flatten_cycles hrange).1 (List.contains_iff_mem.1 hu)).source_lt hrange
    rw [List.getElem?_eq_getElem hlt, Option.map_some, if_pos hu]
    exact ⟨_, rfl, rfl⟩

/-- The walk for inherited fields does not enter a type that is marked. -/
theorem inherited_of_marked {types : List ResolvedType} {u v : Nat} {t r : ResolvedType}
    (ht : types[u]? = some t) (hv : s.baseId? t = some v) (hr : types[v]? = some r)
    (hmark : r.inCycle = true) (n : Nat) : s.inherited (s.linked types) n u = [] := by
  cases n with
  | zero => rfl
  | succ n =>
    have hlink {id : Nat} {x : ResolvedType} (hx : types[id]? = some x) :
        (s.linked types)[id]? = some (x, s.baseId? x) := by
      simp [linked, hx]
    rw [inherited, hlink ht, hv]
    dsimp only
    cases t.base with
    | none => rfl
    | some base => simp only [hlink hr, hmark, if_true]

theorem inherited_of_accepts (h : s.contents.NamesSound) {u v : Nat} (huv : s.Accepts u v)
    (hv : s.Marked v) (n : Nat) : s.inherited (s.linked s.resolveTypes.result) n u = [] := by
  obtain ⟨r, hr, hmark⟩ := hv
  rw [resolveTypes_eq] at hr ⊢
  obtain ⟨t, ht, hbase⟩ := edge_baseGraph.1 ((edge_iff_accepts h).2 huv)
  have hbind : s.markedTypes[u]?.bind s.baseId? = some v := by
    rw [markedTypes, bind_markCyclic, ht]
    exact hbase
  obtain ⟨t', ht', hbase'⟩ := Option.bind_eq_some_iff.1 hbind
  exact inherited_of_marked ht' hbase' hr hmark n

/-! ## Reports -/

/-- The diagnostic for a ring: at its first type, with the names round to that one again. -/
def ReportsRing (s : Scope) (ring : List Nat) (d : Diagnostic) : Prop :=
  ∃ start t, ring.head? = some start ∧ s.decls.types[start]? = some t ∧
    d = (Problem.inheritanceCycle (ring.map s.typeName ++ [t.decl.name.name])).located t.unit
      t.decl.name.span

/-- The report depends on the first type of a group only. -/
theorem reportBaseCycle_eq (h : s.contents.NamesSound) {cycle ring : List Nat}
    (hring : Graph.Ring s.Accepts ring) (hhead : cycle.head? = ring.head?) :
    ∃ d, s.reportBaseCycle s.resolvedTypes cycle = [d] ∧ s.ReportsRing ring d := by
  cases ring with
  | nil => exact hring.elim
  | cons start rest =>
    cases cycle with
    | nil => cases hhead
    | cons u others =>
      obtain rfl := Option.some_inj.1 hhead
      have hlt : u < s.decls.types.length := by
        have hroute := hring.route
        rw [← edge_eq_accepts h] at hroute
        exact s.size_baseGraph ▸ Graph.Reaches.source_lt (inRange_baseGraph h) hroute.reaches_goal
      have hbound : s.decls.types.length ≤ s.resolvedTypes.length := by simp [resolvedTypes]
      have ht := List.getElem?_eq_getElem hlt
      refine ⟨_, ?_, u, _, rfl, ht, rfl⟩
      simp only [reportBaseCycle, ht, baseChain_of_ring h hring hbound, typeName_eq ht,
        List.map_cons, List.cons_append]

theorem code_of_typeRef_error {p : Script.Path} {problem : Problem} {span : Span}
    (h : (s.typeRef p).found = .error (problem, span)) : problem.code ≠ .inheritanceCycle := by
  rcases typeRef_eq_error h with ⟨q, -, heq⟩ | ⟨-, heq⟩ <;> cases heq <;> exact nofun

theorem Finding.code {t : Script.TypeDecl} {problem : Problem} {span : Span}
    (h : s.Finding t problem span) : problem.code ≠ .inheritanceCycle := by
  cases h with
  | lost _ herror => exact code_of_typeRef_error herror
  | refused _ hrefusal => rcases baseRefusal?_cases hrefusal with ⟨k, rfl⟩ | rfl <;> exact nofun
  | repeated _ => exact nofun

/-- The other parts of the pass have other codes. -/
theorem filter_cycles (s : Scope) :
    s.resolveTypes.2.filter (·.code = .inheritanceCycle) =
      (s.baseGraph s.resolvedTypes).cycles.flatMap (s.reportBaseCycle s.resolvedTypes) := by
  have htypes : (s.decls.types.flatMap fun t => (s.resolveType t).2).filter
      (·.code = .inheritanceCycle) = [] := by
    refine List.filter_eq_nil_iff.2 fun d hd hcode => ?_
    obtain ⟨t, -, hd⟩ := List.mem_flatMap.1 hd
    obtain ⟨problem, span, hfinding, rfl⟩ := finding_of_mem_resolveType hd
    exact hfinding.code (of_decide_eq_true hcode)
  have hshadowing : s.shadowing.filter (·.code = .inheritanceCycle) = [] := by
    refine List.filter_eq_nil_iff.2 fun d hd => ?_
    obtain ⟨_, _, _, ⟨_, _, _, rfl⟩, rfl⟩ := s.says_shadowing d hd
    exact nofun
  have hcycles : ((s.baseGraph s.resolvedTypes).cycles.flatMap
      (s.reportBaseCycle s.resolvedTypes)).filter (·.code = .inheritanceCycle) =
        (s.baseGraph s.resolvedTypes).cycles.flatMap (s.reportBaseCycle s.resolvedTypes) := by
    refine List.filter_eq_self.2 fun d hd => ?_
    obtain ⟨cycle, -, hd⟩ := List.mem_flatMap.1 hd
    unfold reportBaseCycle at hd
    split at hd
    · cases hd
    · split at hd
      · cases hd
      · rw [List.mem_singleton.1 hd]
        rfl
  rw [resolveTypes_snd, List.filter_append, List.filter_append, htypes, hshadowing, hcycles,
    List.nil_append, List.append_nil]

/-! ## All cycles -/

/--
Whatever is registered, there is one diagnostic for each cycle of the bases that are not refused.
It stands at the first type of the cycle that is declared, and its names go round from this type to
this type again by way of each other one. The walk that collects them comes to its end whatever
bound it has, if that allows for all types. The types on these cycles are those that reach
themselves along the bases. They are the ones that are marked, and a type that extends one of these
inherits nothing.
-/
theorem resolveTypes_cycles (module : String) (snapshot : Snapshot)
    (units : List (Nat × Script)) :
    let s : Scope := ⟨module, snapshot, (Declarations.ofUnits units).1⟩
    ∃ rings : List (List Nat),
      (∀ ring, ring ∈ rings ↔ Graph.Ring s.Accepts ring) ∧
      (rings.filterMap List.head?).Pairwise (· < ·) ∧ rings.Pairwise List.Disjoint ∧
      List.Forall₂ s.ReportsRing rings
        (s.resolveTypes.2.filter (·.code = .inheritanceCycle)) ∧
      (∀ start rest, start :: rest ∈ rings → ∀ n, s.decls.types.length ≤ n →
        s.baseChain s.resolveTypes.1 start n start =
          rest.map s.typeName ++ [s.typeName start]) ∧
      (∀ u, ((∃ ring ∈ rings, u ∈ ring) ↔ Relation.TransGen s.Accepts u u) ∧
        (s.Marked u ↔ Relation.TransGen s.Accepts u u)) ∧
      ∀ u v, s.Accepts u v → s.Marked v →
        ∀ n, s.inherited (s.linked s.resolveTypes.result) n u = [] := by
  intro s
  have h : s.contents.NamesSound := Declarations.namesSound_ofUnits units
  have hrange := inRange_baseGraph h
  obtain ⟨ringOf, hrings, hheads, hdisjoint, hcycles⟩ :=
    Graph.exists_rings hrange (rightUnique_baseGraph s.resolvedTypes)
  rw [edge_eq_accepts h] at hrings
  have hsame (u : Nat) : (∃ ring ∈ (s.baseGraph s.resolvedTypes).cycles.map ringOf, u ∈ ring) ↔
      u ∈ (s.baseGraph s.resolvedTypes).cycles.flatten := by
    simp only [List.mem_map, exists_exists_and_eq_and, List.mem_flatten]
    exact exists_congr fun c => and_congr_right fun hc => (hcycles c hc).2 u
  refine ⟨_, hrings, hheads, hdisjoint, ?_, fun start rest hring n hn => ?_,
    fun u => ⟨?_, marked_iff h⟩, fun u v huv hv => inherited_of_accepts h huv hv⟩
  · rw [filter_cycles, List.forall₂_map_left_iff]
    refine forall₂_flatMap fun c hc => ?_
    exact reportBaseCycle_eq h ((hrings _).1 (List.mem_map_of_mem hc)) (hcycles c hc).1.symm
  · rw [resolveTypes_eq, markedTypes, baseChain_markCyclic]
    exact baseChain_of_ring h ((hrings _).1 hring) hn
  · rw [hsame, Graph.mem_flatten_cycles hrange, Graph.Reaches, edge_eq_accepts h]

/--
`type a extends b`, `type b extends c`, `type c extends b`, `sealed type d extends d`, each with a
field `x: int`
-/
def pairOfBases : List Script.Item :=
  let named (name : String) : Script.Ident := ⟨name, .point 1 1⟩
  let declared (modifiers : Modifiers) (name base : String) : Script.Item :=
    .type ⟨modifiers, named name, some ⟨none, named base⟩,
      [⟨named "x", ⟨none, named "int"⟩, .point 1 1⟩], .point 1 1⟩
  [declared .empty "a" "b", declared .empty "b" "c", declared .empty "c" "b",
    declared .sealed "d" "d"]

/--
Two of them lie on a cycle and are marked, one only leads there and inherits nothing, and one may
not be extended.
-/
theorem resolveTypes_cycles_pair :
    let s : Scope := ⟨"m", .empty, (Declarations.ofUnits [(0, ⟨pairOfBases, .point 1 1⟩)]).1⟩
    Graph.Ring s.Accepts [1, 2] ∧ s.decls.types.length ≤ 7 ∧
      s.baseChain s.resolveTypes.1 1 7 1 = ["c", "b"] ∧
      (∃ d ∈ s.resolveTypes.2, s.ReportsRing [1, 2] d) ∧
      s.Marked 1 ∧ s.Marked 2 ∧ s.resolveTypes.1.map (·.inCycle) = [false, true, true, false] ∧
      s.Accepts 0 1 ∧ ∀ n, s.inherited (s.linked s.resolveTypes.1) n 0 = [] := by
  intro s
  have hleads : s.Accepts 0 1 :=
    ⟨_, _, _, rfl, rfl, rfl, .own (List.mem_of_getElem? (i := 1) rfl) rfl, rfl⟩
  have hring : Graph.Ring s.Accepts [1, 2] := by
    refine ⟨.cons_cons ?_ (.cons_cons ?_ (.singleton 1)), by decide, by decide⟩
    · exact ⟨_, _, _, rfl, rfl, rfl, .own (List.mem_of_getElem? (i := 2) rfl) rfl, rfl⟩
    · exact ⟨_, _, _, rfl, rfl, rfl, .own (List.mem_of_getElem? (i := 1) rfl) rfl, rfl⟩
  have hbound : s.decls.types.length ≤ 7 := by decide +kernel
  obtain ⟨rings, hrings, -, -, hreports, hwalk, hmarks, hnothing⟩ :=
    resolveTypes_cycles "m" .empty [(0, ⟨pairOfBases, .point 1 1⟩)]
  have hmem := (hrings [1, 2]).2 hring
  have hmarked (u : Nat) (hu : u ∈ [1, 2]) : s.Marked u :=
    (hmarks u).2.2 ((hmarks u).1.1 ⟨_, hmem, hu⟩)
  have hmark := hmarked 1 (by decide)
  refine ⟨hring, hbound, hwalk 1 [2] hmem 7 hbound, ?_, hmark, hmarked 2 (by decide),
    by decide +kernel, hleads, hnothing 0 1 hleads hmark⟩
  obtain ⟨i, hi, heq⟩ := List.mem_iff_getElem.1 hmem
  have hsaid := hreports.get hi (hreports.length_eq ▸ hi)
  rw [List.get_eq_getElem, heq] at hsaid
  exact ⟨_, (List.mem_filter.1 (List.getElem_mem _)).1, hsaid⟩

end Scope
end Linkage
