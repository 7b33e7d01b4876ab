import Linkage.Proofs.Build.Reports
import Linkage.Proofs.Symbols
import Mathlib.Data.List.Forall2
import Mathlib.Order.Monotone.Basic

/-!
# Linkage.Proofs.Build.Blank

A blank unit makes no difference but for the numbers of the units after it.

* `renumber` — declarations, scopes, diagnostics and programs under other unit numbers.
* `resolveTypes_renumber`, `resolveConsts_renumber` — no pass looks at the numbers.
* `ofUnits_renumber` — nor does the order of diagnostics, as long as the units keep their order.
* `readUnits_insert` — what a blank unit does to the text of the others.
* `compile_blank` — what it does to a compile.
-/

namespace Linkage

/-! ## Other unit numbers -/

section

variable (f : Nat → Nat)

def Declared.renumber {α : Type} (d : Declared α) : Declared α := ⟨f d.unit, d.decl⟩

def Declarations.renumber (d : Declarations) : Declarations :=
  ⟨d.types.map (·.renumber f), d.constants.map (·.renumber f)⟩

def Scope.renumber (s : Scope) : Scope := { s with decls := s.decls.renumber f }

def Diagnostic.renumber (d : Diagnostic) : Diagnostic :=
  { d with location := d.location.map fun l => ⟨f l.unit, l.span⟩ }

/-- What a part of a pass gives, with other numbers in what it says. -/
def renumbered {α : Type} (found : α × List Diagnostic) : α × List Diagnostic :=
  (found.1, found.2.map (·.renumber f))

def Pass.renumber {α : Type} (pass : Pass α) : Pass α :=
  { pass with diagnostics := pass.diagnostics.map (·.renumber f) }

end

variable {f : Nat → Nat}

theorem renumber_located (p : Problem) (unit : Nat) (span : Span) :
    (p.located unit span).renumber f = p.located (f unit) span := rfl

/-! ## Registration -/

namespace Declarations

theorem typeId?_renumber (d : Declarations) (n : String) :
    (d.renumber f).typeId? n = d.typeId? n := by
  rw [typeId?, renumber, List.findIdx?_map]
  rfl

theorem constId?_renumber (d : Declarations) (n : String) :
    (d.renumber f).constId? n = d.constId? n := by
  rw [constId?, renumber, List.findIdx?_map]
  rfl

theorem add_renumber (d : Declarations) (unit : Nat) (item : Script.Item) :
    (d.renumber f).add (f unit) item =
      ((d.add unit item).1.renumber f, (d.add unit item).2.map (·.renumber f)) := by
  cases item with
  | type t =>
    simp only [add, addType, typeId?_renumber]
    cases t.modifiers.isSealed && t.modifiers.isAbstract with
    | true =>
      split
      · rfl
      · split
        · rfl
        · simp [renumber, Declared.renumber, renumber_located]
    | false =>
      split
      · rfl
      · split
        · rfl
        · simp [renumber, Declared.renumber]
  | const c =>
    simp only [add, addConst, constId?_renumber]
    split
    · rfl
    · simp [renumber, Declared.renumber]

theorem addAll_renumber (items : List (Nat × Script.Item)) : ∀ d : Declarations,
    (d.renumber f).addAll (items.map (Prod.map f id)) =
      ((d.addAll items).1.renumber f, (d.addAll items).2.map (·.renumber f)) := by
  induction items with
  | nil => exact fun _ => rfl
  | cons i items ih =>
    intro d
    simp only [List.map_cons, Prod.map, addAll, id_eq, add_renumber, ih, List.map_append]

theorem ofUnits_renumber (units : List (Nat × Script)) :
    ofUnits (units.map (Prod.map f id)) =
      ((ofUnits units).1.renumber f, (ofUnits units).2.map (·.renumber f)) := by
  have hitems : (units.map (Prod.map f id)).flatMap
      (fun u => u.2.items.map fun item => (u.1, item)) =
      (units.flatMap fun u => u.2.items.map fun item => (u.1, item)).map (Prod.map f id) := by
    simp only [List.flatMap_map, List.map_flatMap, List.map_map]
    rfl
  rw [ofUnits, hitems]
  exact addAll_renumber _ empty

end Declarations

namespace Scope

variable (s : Scope)

/-! ## Types -/

theorem typeRef_renumber (p : Script.Path) : (s.renumber f).typeRef p = s.typeRef p := by
  have hown : (s.renumber f).ownType p = s.ownType p := by
    simp only [ownType, renumber, Declarations.typeId?_renumber]
  unfold typeRef
  rw [hown]
  rfl

theorem baseRefusal?_renumber (name : String) (path : Script.Path) (r : TypeRef) :
    (s.renumber f).baseRefusal? name path r = s.baseRefusal? name path r := by
  cases r with
  | builtin k => rfl
  | own base =>
    simp only [baseRefusal?, renumber, Declarations.renumber, List.any_map]
    rfl
  | imported m base => rfl

theorem resolveBase_renumber (unit : Nat) (t : Script.TypeDecl) :
    (s.renumber f).resolveBase (f unit) t = (s.resolveBase unit t).renumber f := by
  unfold resolveBase
  cases t.base with
  | none => rfl
  | some path =>
    simp only [typeRef_renumber, baseRefusal?_renumber]
    split
    · rfl
    · split <;> rfl

theorem resolveFields_renumber (unit : Nat) (type : String) (fs : List Script.FieldDecl) :
    ∀ seen, (s.renumber f).resolveFields (f unit) type seen fs =
      (s.resolveFields unit type seen fs).renumber f := by
  induction fs with
  | nil => exact fun _ => rfl
  | cons g fs ih =>
    intro seen
    simp only [resolveFields, ih, typeRef_renumber]
    split
    · rfl
    · split <;> rfl

theorem resolveType_renumber (t : Declared Script.TypeDecl) :
    (s.renumber f).resolveType (t.renumber f) = (s.resolveType t).renumber f := by
  simp only [resolveType, Declared.renumber, resolveBase_renumber, resolveFields_renumber,
    Pass.renumber, List.map_append]

theorem baseId?_renumber : (s.renumber f).baseId? = s.baseId? := by
  funext t
  simp only [baseId?, renumber, Declarations.typeId?_renumber]

theorem typeName_renumber : (s.renumber f).typeName = s.typeName := by
  funext id
  simp only [typeName, renumber, Declarations.renumber, List.getElem?_map]
  cases s.decls.types[id]? <;> rfl

theorem baseChain_renumber (types : List ResolvedType) (start n : Nat) :
    ∀ id, (s.renumber f).baseChain types start n id = s.baseChain types start n id := by
  induction n with
  | zero => exact fun _ => rfl
  | succ n ih =>
    intro id
    simp only [baseChain, baseId?_renumber, typeName_renumber, ih]

theorem reportBaseCycle_renumber (types : List ResolvedType) :
    (s.renumber f).reportBaseCycle types = fun cycle =>
      (s.reportBaseCycle types cycle).map (·.renumber f) := by
  funext cycle
  cases cycle with
  | nil => rfl
  | cons start rest =>
    simp only [reportBaseCycle, baseChain_renumber]
    simp only [renumber, Declarations.renumber, List.getElem?_map]
    cases s.decls.types[start]? <;> rfl

theorem importedFields_renumber (n : Nat) : ∀ visited base,
    (s.renumber f).importedFields n visited base = s.importedFields n visited base := by
  induction n with
  | zero => exact fun _ _ => rfl
  | succ n ih =>
    intro visited base
    unfold importedFields
    simp only [ih]
    rfl

theorem inherited_renumber (types : Array Linked) (n : Nat) :
    ∀ id, (s.renumber f).inherited types n id = s.inherited types n id := by
  induction n with
  | zero => exact fun _ => rfl
  | succ n ih =>
    intro id
    unfold inherited
    simp only [ih, importedFields_renumber]
    rfl

theorem reportShadowing_renumber (types : Array Linked) (t : Declared Script.TypeDecl) (id : Nat)
    (r : ResolvedType) :
    (s.renumber f).reportShadowing types (t.renumber f) id r =
      (s.reportShadowing types t id r).map (·.renumber f) := by
  simp only [reportShadowing, inherited_renumber]
  split
  · rfl
  · rw [List.map_filterMap]
    refine List.filterMap_congr fun g _ => ?_
    cases (s.inherited types types.size id).find? (·.1 == g.decl.name.name) <;> rfl

theorem resolvedTypes_renumber : (s.renumber f).resolvedTypes = s.resolvedTypes := by
  have htypes : (s.renumber f).decls.types = s.decls.types.map (·.renumber f) := rfl
  simp only [resolvedTypes, htypes, List.map_map, Function.comp_def, resolveType_renumber,
    Pass.renumber]

theorem baseGraph_renumber : (s.renumber f).baseGraph = s.baseGraph := by
  funext types
  rw [baseGraph, baseId?_renumber, baseGraph]

theorem markedTypes_renumber : (s.renumber f).markedTypes = s.markedTypes := by
  rw [markedTypes, resolvedTypes_renumber, baseGraph_renumber, markedTypes]

theorem linked_renumber (types : List ResolvedType) :
    (s.renumber f).linked types = s.linked types := by
  rw [linked, baseId?_renumber, linked]

theorem shadowing_renumber : (s.renumber f).shadowing = s.shadowing.map (·.renumber f) := by
  have hpairs : ((s.renumber f).decls.types.zip s.markedTypes).zipIdx =
      (s.decls.types.zip s.markedTypes).zipIdx.map
        (Prod.map (Prod.map (·.renumber f) id) id) := by
    rw [renumber, Declarations.renumber, List.zip_map_left, List.zipIdx_map]
  simp only [shadowing, markedTypes_renumber, linked_renumber, hpairs, List.flatMap_map,
    List.map_flatMap]
  exact List.flatMap_congr fun x _ => s.reportShadowing_renumber _ x.1.1 x.2 x.1.2

theorem resolveTypes_renumber : (s.renumber f).resolveTypes = s.resolveTypes.renumber f := by
  have htypes : (s.renumber f).decls.types = s.decls.types.map (·.renumber f) := rfl
  simp only [resolveTypes_eq, Pass.renumber, markedTypes_renumber, resolvedTypes_renumber,
    shadowing_renumber, baseGraph_renumber, htypes, List.flatMap_map, List.map_append,
    List.map_flatMap, resolveType_renumber, reportBaseCycle_renumber]

/-! ## Constants -/

theorem constTarget_renumber (p : Script.Path) :
    (s.renumber f).constTarget p = s.constTarget p := by
  unfold constTarget
  simp only [renumber, Declarations.constId?_renumber]
  rfl

theorem resolveExpr_renumber (unit : Nat) (e : Script.Expr) :
    (s.renumber f).resolveExpr (f unit) e = (s.resolveExpr unit e).renumber f := by
  induction e with
  | literal v span => rfl
  | path p =>
    simp only [resolveExpr, constTarget_renumber]
    split <;> rfl
  | negate e span ih =>
    simp only [resolveExpr, ih]
    rfl
  | binary op l r span ihl ihr =>
    simp only [resolveExpr, ihl, ihr, Pass.renumber]
    split <;> simp only [List.map_append]

theorem settle_renumber (unit : Nat) (span : Span) (x : Except ArithmeticError Value) :
    Term.settle (f unit) span x = renumbered f (Term.settle unit span x) := by
  cases x <;> rfl

theorem eval_renumber (snapshot : Snapshot) (values : Nat → Option Value) (unit : Nat) (t : Term) :
    t.eval snapshot values (f unit) = renumbered f (t.eval snapshot values unit) := by
  induction t with
  | literal v => rfl
  | own id => rfl
  | imported m c span =>
    simp only [Term.eval]
    split <;> rfl
  | negate t span ih =>
    simp only [Term.eval, ih]
    obtain ⟨v, ds⟩ := t.eval snapshot values unit
    cases v with
    | none => rfl
    | some v => simp only [renumbered, settle_renumber, List.map_append]
  | binary op l r span ihl ihr =>
    simp only [Term.eval, ihl, ihr, renumbered]
    split
    · simp only [settle_renumber, renumbered, List.map_append]
    · simp only [List.map_append]

theorem terms_renumber : (s.renumber f).terms = s.terms := by
  have hconsts : (s.renumber f).decls.constants = s.decls.constants.map (·.renumber f) := rfl
  simp only [terms, hconsts, List.map_map, Function.comp_def, Declared.renumber,
    resolveExpr_renumber, Pass.renumber]

theorem constName_renumber : (s.renumber f).constName = s.constName := by
  funext id
  simp only [constName, renumber, Declarations.renumber, List.getElem?_map]
  cases s.decls.constants[id]? <;> rfl

theorem reportConstCycle_renumber :
    (s.renumber f).reportConstCycle = fun cycle =>
      (s.reportConstCycle cycle).map (·.renumber f) := by
  funext cycle
  cases cycle with
  | nil => rfl
  | cons first rest =>
    simp only [reportConstCycle, constName_renumber]
    simp only [renumber, Declarations.renumber, List.getElem?_map]
    cases s.decls.constants[first]? <;> rfl

theorem evalConst_renumber (terms : Array (Option Term)) (cyclic : List Nat)
    (state : Array (Option Value) × List Diagnostic) (id : Nat) :
    (s.renumber f).evalConst terms cyclic (renumbered f state) id =
      renumbered f (s.evalConst terms cyclic state id) := by
  have hconst : (s.renumber f).decls.constants[id]? =
      s.decls.constants[id]?.map (·.renumber f) := List.getElem?_map
  unfold evalConst
  rw [hconst]
  cases terms[id]?.join with
  | none => rfl
  | some t =>
    cases s.decls.constants[id]? with
    | none => rfl
    | some c =>
      simp only [Option.map_some]
      split
      · rfl
      · simp only [Declared.renumber, eval_renumber, renumbered, List.map_append]
        rfl

theorem evaluated_renumber : (s.renumber f).evaluated = renumbered f s.evaluated := by
  rw [evaluated, cyclic, terms_renumber]
  exact @List.foldl_hom _ _ _ (renumbered f) _ _ _ (Array.replicate s.terms.length none, [])
    fun state id => s.evalConst_renumber _ _ state id

theorem resolveConsts_renumber : (s.renumber f).resolveConsts = s.resolveConsts.renumber f := by
  have hconsts : (s.renumber f).decls.constants = s.decls.constants.map (·.renumber f) := rfl
  simp only [resolveConsts_eq, evaluated_renumber, renumbered, Pass.renumber, terms_renumber,
    hconsts, List.flatMap_map, List.map_append, List.map_flatMap, Declared.renumber,
    resolveExpr_renumber, reportConstCycle_renumber]

end Scope

/-! ## Programs -/

theorem notAfter_renumber (hf : StrictMono f) (a b : Diagnostic) :
    (a.renumber f).notAfter (b.renumber f) = a.notAfter b := by
  obtain ⟨_, _, l⟩ := a
  obtain ⟨_, _, m⟩ := b
  cases l with
  | none => cases m <;> rfl
  | some l =>
    cases m with
    | none => rfl
    | some m =>
      simp only [Diagnostic.notAfter, Diagnostic.renumber, Option.map_some, hf.lt_iff_lt]
      congr 2
      rw [Bool.eq_iff_iff, beq_iff_eq, beq_iff_eq, hf.injective.eq_iff]

namespace Program

/-- The program of scripts that are read already, without what is wrong with their text. -/
def ofUnits (module : String) (units : List (Nat × Script)) (snapshot : Snapshot) : Program :=
  let (decls, registration) := Declarations.ofUnits units
  let scope : Scope := ⟨module, snapshot, decls⟩
  let types := scope.resolveTypes
  let constants := scope.resolveConsts
  { scope := scope
    types := types.result
    constants := constants.result
    modules := types.modules ++ constants.modules
    diagnostics := (registration ++ types.diagnostics ++ constants.diagnostics).mergeSort
      Diagnostic.notAfter }

theorem ofSources_eq (module : String) (sources : List Source) (snapshot : Snapshot) :
    ofSources module sources snapshot =
      { ofUnits module (readUnits sources.zipIdx).1 snapshot with
        diagnostics := (readUnits sources.zipIdx).2 ++
          (ofUnits module (readUnits sources.zipIdx).1 snapshot).diagnostics } := rfl

theorem located_ofUnits (module : String) (units : List (Nat × Script)) (snapshot : Snapshot) :
    Says (fun _ => True) (ofUnits module units snapshot).diagnostics := by
  intro d hd
  rw [ofUnits, List.mem_mergeSort, List.mem_append, List.mem_append] at hd
  rcases hd with (hd | hd) | hd
  · exact ((Declarations.says_addAll _ .empty).imp fun _ _ => trivial) d hd
  · exact Scope.says_resolveTypes _ d hd
  · exact Scope.says_resolveConsts _ d hd

def renumber (f : Nat → Nat) (p : Program) : Program :=
  { p with
    scope := p.scope.renumber f
    diagnostics := p.diagnostics.map (·.renumber f) }

/-- The order of diagnostics stays the same when the order of the units does. -/
theorem ofUnits_renumber (hf : StrictMono f) (module : String) (units : List (Nat × Script))
    (snapshot : Snapshot) : ofUnits module (units.map (Prod.map f id)) snapshot =
      (ofUnits module units snapshot).renumber f := by
  have hscope : (⟨module, snapshot, (Declarations.ofUnits units).1.renumber f⟩ : Scope) =
      Scope.renumber f ⟨module, snapshot, (Declarations.ofUnits units).1⟩ := rfl
  simp only [ofUnits, renumber, Declarations.ofUnits_renumber, hscope,
    Scope.resolveTypes_renumber, Scope.resolveConsts_renumber, Pass.renumber, ← List.map_append]
  rw [List.map_mergeSort fun a _ b _ => (notAfter_renumber hf a b).symm]

theorem constDef?_renumber (p : Program) (o : Optimization) (c : Declared Script.ConstDecl)
    (r : ResolvedConst) : (p.renumber f).constDef? o (c.renumber f) r = p.constDef? o c r := by
  simp only [constDef?, renumber, Scope.constName_renumber]
  rfl

theorem interface_renumber (p : Program) (o : Optimization) :
    (p.renumber f).interface o = p.interface o := by
  have htypes : (p.renumber f).scope.decls.types =
      p.scope.decls.types.map (·.renumber f) := rfl
  have hconsts : (p.renumber f).scope.decls.constants =
      p.scope.decls.constants.map (·.renumber f) := rfl
  simp only [interface, htypes, hconsts, List.zipWith_map_left, List.zip_map_left,
    List.filterMap_map, Function.comp_def, Prod.map, constDef?_renumber]
  rfl

end Program

/-! ## Debug symbols -/

/-- The same entry for a declaration in the unit of the new number; there are this many units. -/
def Symbols.Entry.Moved (f : Nat → Nat) (count : Nat) (e e' : Entry) : Prop :=
  ∃ unit < count, e.unit = UInt32.ofNat unit ∧ e' = { e with unit := UInt32.ofNat (f unit) }

theorem forall₂_flatMap_same {α β γ : Type} {R : β → γ → Prop} {g : α → List β} {h : α → List γ}
    {xs : List α} (hgh : ∀ x ∈ xs, List.Forall₂ R (g x) (h x)) :
    List.Forall₂ R (xs.flatMap g) (xs.flatMap h) := by
  induction xs with
  | nil => exact .nil
  | cons x xs ih =>
    rw [List.forall_mem_cons] at hgh
    exact List.rel_append hgh.1 (ih hgh.2)

namespace Program

theorem entries_renumber {p : Program} {count : Nat}
    (htypes : ∀ t ∈ p.scope.decls.types, t.unit < count)
    (hconsts : ∀ c ∈ p.scope.decls.constants, c.unit < count) (names names' : List String) :
    List.Forall₂ (Symbols.Entry.Moved f count) (p.symbols names).entries
      ((p.renumber f).symbols names').entries := by
  have htypes' : (p.renumber f).scope.decls.types = p.scope.decls.types.map (·.renumber f) := rfl
  have hconsts' : (p.renumber f).scope.decls.constants =
      p.scope.decls.constants.map (·.renumber f) := rfl
  simp only [symbols, htypes', hconsts', List.flatMap_map, List.map_map]
  refine List.rel_append (forall₂_flatMap_same fun t ht => ?_) ?_
  · refine .cons ⟨t.unit, htypes t ht, rfl, rfl⟩ ?_
    rw [List.forall₂_map_left_iff, List.forall₂_map_right_iff]
    exact List.forall₂_same.2 fun g _ => ⟨t.unit, htypes t ht, rfl, rfl⟩
  · rw [List.forall₂_map_left_iff, List.forall₂_map_right_iff, List.forall₂_same]
    exact fun c hc => ⟨c.unit, hconsts c hc, rfl, rfl⟩

end Program

/-! ## One unit more -/

/-- The number of a unit after one more has been inserted before the unit of number `n`. -/
def past (n unit : Nat) : Nat := if unit < n then unit else unit + 1

theorem past_eq_self {n unit : Nat} : past n unit = unit ↔ unit < n := by
  unfold past
  split <;> omega

theorem strictMono_past (n : Nat) : StrictMono (past n) := by
  intro a b h
  unfold past
  split <;> split <;> omega

theorem map_past_zipIdx {α : Type} (xs : List α) {n : Nat} (h : xs.length ≤ n) :
    xs.zipIdx.map (Prod.map id (past n)) = xs.zipIdx := by
  refine (List.map_congr_left fun x hx => ?_).trans (List.map_id _)
  have hlt := List.snd_lt_of_mem_zipIdx hx
  exact Prod.ext rfl (past_eq_self.2 (by omega))

theorem map_past_zipIdx_from {α : Type} (xs : List α) (n : Nat) :
    (xs.zipIdx n).map (Prod.map id (past n)) = xs.zipIdx (n + 1) := by
  rw [List.zipIdx_succ]
  refine List.map_congr_left fun x hx => Prod.ext rfl ?_
  exact if_neg (Nat.not_lt.2 (List.le_snd_of_mem_zipIdx hx))

theorem readUnits_append (us vs : List (Source × Nat)) :
    readUnits (us ++ vs) =
      ((readUnits us).1 ++ (readUnits vs).1, (readUnits us).2 ++ (readUnits vs).2) := by
  induction us with
  | nil => rfl
  | cons u us ih =>
    obtain ⟨source, unit⟩ := u
    cases hblank : source.isBlank with
    | true => rw [List.cons_append, readUnits_blank hblank, readUnits_blank hblank, ih]; rfl
    | false =>
      rw [List.cons_append, readUnits_text hblank, readUnits_text hblank, ih]
      simp only [List.cons_append, List.append_assoc]

/-- A blank unit is said to be skipped, and has no place. -/
def Diagnostic.skipped (unit : Nat) : Diagnostic :=
  ⟨(Problem.blankSource unit).code, (Problem.blankSource unit).message, none⟩

/-- The same diagnostic about the unit of the new number. -/
inductive Diagnostic.Moved (f : Nat → Nat) : Diagnostic → Diagnostic → Prop where
  | located (p : Problem) (unit : Nat) (span : Span) :
      Moved f (p.located unit span) (p.located (f unit) span)
  | skipped (unit : Nat) : Moved f (.skipped unit) (.skipped (f unit))

theorem Says.moved {ds : List Diagnostic} (h : Says (fun _ => True) ds) :
    List.Forall₂ (Diagnostic.Moved f) ds (ds.map (·.renumber f)) := by
  rw [List.forall₂_map_right_iff, List.forall₂_same]
  intro d hd
  obtain ⟨p, unit, span, -, rfl⟩ := h d hd
  exact .located p unit span

theorem readUnits_renumber (us : List (Source × Nat)) :
    (readUnits (us.map (Prod.map id f))).1 = (readUnits us).1.map (Prod.map f id) ∧
      List.Forall₂ (Diagnostic.Moved f) (readUnits us).2
        (readUnits (us.map (Prod.map id f))).2 := by
  induction us with
  | nil => exact ⟨rfl, .nil⟩
  | cons u us ih =>
    obtain ⟨source, unit⟩ := u
    obtain ⟨hscripts, hsaid⟩ := ih
    rw [List.map_cons, Prod.map]
    cases hblank : source.isBlank with
    | true =>
      rw [id, readUnits_blank hblank, readUnits_blank hblank]
      exact ⟨hscripts, .cons (.skipped unit) hsaid⟩
    | false =>
      rw [id, readUnits_text hblank, readUnits_text hblank, List.map_cons, hscripts]
      refine ⟨rfl, List.rel_append ?_ hsaid⟩
      rw [List.forall₂_map_left_iff, List.forall₂_map_right_iff, List.forall₂_same]
      exact fun e _ => .located (.malformed e) unit e.span

/-- With a blank unit in between, the others are read as they are under their new numbers. -/
theorem readUnits_insert (before after : List Source) {blank : Source}
    (h : blank.isBlank = true) :
    let old := readUnits (before ++ after).zipIdx
    let new := readUnits (before ++ blank :: after).zipIdx
    new.1 = old.1.map (Prod.map (past before.length) id) ∧
      ∃ ds es, new.2 = ds ++ Diagnostic.skipped before.length :: es ∧
        List.Forall₂ (Diagnostic.Moved (past before.length)) old.2 (ds ++ es) := by
  intro old new
  obtain ⟨hscripts, hsaid⟩ :=
    readUnits_renumber (f := past before.length) (before ++ after).zipIdx
  rw [List.zipIdx_append, List.map_append, Nat.zero_add, map_past_zipIdx before (Nat.le_refl _),
    map_past_zipIdx_from, readUnits_append before.zipIdx (after.zipIdx (before.length + 1)),
    ← Nat.zero_add before.length, ← List.zipIdx_append, Nat.zero_add] at hscripts hsaid
  have hnew : new =
      ((readUnits before.zipIdx).1 ++ (readUnits (after.zipIdx (before.length + 1))).1,
      (readUnits before.zipIdx).2 ++ Diagnostic.skipped before.length ::
        (readUnits (after.zipIdx (before.length + 1))).2) := by
    show readUnits (before ++ blank :: after).zipIdx = _
    rw [List.zipIdx_append, Nat.zero_add, List.zipIdx_cons, readUnits_append, readUnits_blank h]
    rfl
  rw [hnew]
  exact ⟨hscripts, _, _, rfl, hsaid⟩

namespace Program

/-- Declarations stand in units that there are. -/
theorem unit_lt (module : String) (sources : List Source) (snapshot : Snapshot) :
    let p := ofUnits module (readUnits sources.zipIdx).1 snapshot
    (∀ t ∈ p.scope.decls.types, t.unit < sources.length) ∧
      ∀ c ∈ p.scope.decls.constants, c.unit < sources.length := by
  intro p
  -- Moving only the numbers of units that there are not moves nothing.
  have hscripts := (readUnits_renumber (f := past sources.length) sources.zipIdx).1
  rw [map_past_zipIdx sources (Nat.le_refl _)] at hscripts
  have hdecls : p.scope.decls = p.scope.decls.renumber (past sources.length) := by
    have hsame := Declarations.ofUnits_renumber (f := past sources.length)
      (readUnits sources.zipIdx).1
    rw [← hscripts] at hsame
    exact congrArg Prod.fst hsame
  have hstays {α : Type} {xs : List (Declared α)}
      (hxs : xs = xs.map (·.renumber (past sources.length))) :
      ∀ x ∈ xs, x.unit < sources.length := by
    intro x hx
    have hfixed := List.map_inj_left.1 (hxs.symm.trans (List.map_id xs).symm) x hx
    exact past_eq_self.1 (congrArg Declared.unit hfixed)
  exact ⟨hstays (congrArg Declarations.types hdecls),
    hstays (congrArg Declarations.constants hdecls)⟩

end Program

theorem Diagnostic.Moved.isError_eq {d e : Diagnostic} (h : d.Moved f e) :
    d.isError = e.isError := by
  cases h <;> rfl

theorem any_isError_of_moved {ds es : List Diagnostic}
    (h : List.Forall₂ (Diagnostic.Moved f) ds es) :
    ds.any Diagnostic.isError = es.any Diagnostic.isError := by
  induction h with
  | nil => rfl
  | cons hd _ ih => rw [List.any_cons, List.any_cons, hd.isError_eq, ih]

/-! ## Compiling -/

/-- The symbols of the same members, whose units have new numbers in the other sources. -/
structure Symbols.Moved (f : Nat → Nat) (sources sources' : List Source) (a b : Symbols) :
    Prop where
  module : b.module = a.module
  units : a.units = origins sources ∧ b.units = origins sources'
  entries : List.Forall₂ (Entry.Moved f sources.length) a.entries b.entries

/-- The same image, and symbols, if there are any, that differ in the units only. -/
structure Output.Moved (f : Nat → Nat) (sources sources' : List Source) (o o' : Output) :
    Prop where
  image : o'.image = o.image
  symbols : Option.Rel (fun bytes bytes' => ∃ a b : Symbols, bytes = a.encode ∧
    bytes' = b.encode ∧ a.Moved f sources sources' b) o.symbols o'.symbols

/--
One blank unit more adds one diagnostic that says so. Otherwise the diagnostics are the same and in
the same order, the image is the same if there is one, and so are the symbols, but for the numbers
of the units after it.
-/
theorem compile_blank (options : Options) (module : String) (before after : List Source)
    {blank : Source} (h : blank.isBlank = true) (snapshot : Snapshot) :
    let old := compile options module (before ++ after) snapshot
    let new := compile options module (before ++ blank :: after) snapshot
    (∃ ds es, new.diagnostics = ds ++ Diagnostic.skipped before.length :: es ∧
      List.Forall₂ (Diagnostic.Moved (past before.length)) old.diagnostics (ds ++ es)) ∧
    Option.Rel
      (Output.Moved (past before.length) (before ++ after) (before ++ blank :: after))
      old.output new.output := by
  intro old new
  let p := Program.ofUnits module (readUnits (before ++ after).zipIdx).1 snapshot
  obtain ⟨hscripts, ds, es, hsaid, hmoved⟩ := readUnits_insert before after h
  have hrest : List.Forall₂ (Diagnostic.Moved (past before.length)) p.diagnostics
      (p.renumber (past before.length)).diagnostics :=
    (Program.located_ofUnits module _ snapshot).moved
  have hprogram : Program.ofSources module (before ++ blank :: after) snapshot =
      { p.renumber (past before.length) with
        diagnostics := ds ++ Diagnostic.skipped before.length ::
          (es ++ (p.renumber (past before.length)).diagnostics) } := by
    rw [Program.ofSources_eq, hscripts, hsaid, Program.ofUnits_renumber (strictMono_past _)]
    simp only [List.append_assoc, List.cons_append, p]
  have hall : List.Forall₂ (Diagnostic.Moved (past before.length))
      (Program.ofSources module (before ++ after) snapshot).diagnostics
      (ds ++ (es ++ (p.renumber (past before.length)).diagnostics)) := by
    rw [← List.append_assoc]
    exact List.rel_append hmoved hrest
  have herrors : (Program.ofSources module (before ++ blank :: after) snapshot).hasErrors =
      (Program.ofSources module (before ++ after) snapshot).hasErrors := by
    rw [Program.hasErrors, Program.hasErrors, any_isError_of_moved hall, hprogram]
    simp only [List.any_append, List.any_cons]
    rfl
  refine ⟨⟨ds, es ++ (p.renumber (past before.length)).diagnostics, ?_, ?_⟩, ?_⟩
  · rw [diagnostics_compile, hprogram]
  · rwa [diagnostics_compile]
  · show Option.Rel _ (compile options module (before ++ after) snapshot).output
      (compile options module (before ++ blank :: after) snapshot).output
    unfold compile
    dsimp only
    rw [herrors]
    split
    · exact .none
    · refine .some ⟨?_, ?_⟩
      · rw [hprogram]
        exact congrArg Interface.encode (p.interface_renumber options.optimization)
      · split
        · obtain ⟨htypes, hconsts⟩ := Program.unit_lt module (before ++ after) snapshot
          refine .some ⟨_, _, rfl, rfl, ?_, ⟨rfl, rfl⟩, ?_⟩
          · rw [hprogram]
            rfl
          · rw [hprogram]
            exact Program.entries_renumber htypes hconsts _ _
        · exact .none

/-! ### A blank unit before another one and a warning -/

def tabs : Source := ⟨"\t\n", some "tabs"⟩

def sized : List Source := [⟨"const SIZE = 1;", none⟩]

def shadowed : List Source :=
  [⟨" ", none⟩, ⟨"type Base \x7b x: int; \x7d type Dot extends Base \x7b x: int; \x7d", none⟩]

theorem compile_blank_shadowed :
    let old := compile .debug "Dots" (sized ++ shadowed) ⟨[]⟩
    let new := compile .debug "Dots" (sized ++ tabs :: shadowed) ⟨[]⟩
    tabs.isBlank = true ∧ old.output.isSome = true ∧
    old.diagnostics.map (·.code) = [.blankSourceSkipped, .shadowedField] ∧
    (∃ ds es, new.diagnostics = ds ++ Diagnostic.skipped 1 :: es ∧
      List.Forall₂ (Diagnostic.Moved (past 1)) old.diagnostics (ds ++ es)) ∧
    Option.Rel (Output.Moved (past 1) (sized ++ shadowed) (sized ++ tabs :: shadowed))
      old.output new.output := by
  have hblank : tabs.isBlank = true := by
    decide
  obtain ⟨hsaid, houtput⟩ := compile_blank .debug "Dots" sized shadowed hblank ⟨[]⟩
  exact ⟨hblank, by decide +kernel, by decide +kernel, hsaid, houtput⟩

end Linkage
