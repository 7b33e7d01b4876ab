import Linkage.Build.Emission
import Linkage.Proofs.Build.WellFormed
import Linkage.Proofs.Graph

/-!
# Linkage.Proofs.Build.Registration

The first passes of a compile against the conditions on declarations.

* `NoErrors` — what a list of diagnostics says if a compile with them is accepted.
* `Says P` — every one of the diagnostics is a problem that satisfies `P`, at some place.
* `noErrors_readUnits` — the text has no errors exactly if every unit can be read.
* `says_addAll` — what is said while declarations are added is about them.
* `addAll_eq_nil` — declarations are added without a word exactly if they are admitted.
* `addAll_eq` — then all of them are kept.
* `mem_of_addAll` — what is kept has been declared.
-/

namespace Linkage

/-! ## Errors -/

def NoErrors (ds : List Diagnostic) : Prop := ∀ d ∈ ds, d.isError = false

def AllErrors (ds : List Diagnostic) : Prop := ∀ d ∈ ds, d.isError = true

theorem noErrors_append {ds es : List Diagnostic} :
    NoErrors (ds ++ es) ↔ NoErrors ds ∧ NoErrors es := List.forall_mem_append

theorem allErrors_append {ds es : List Diagnostic} :
    AllErrors (ds ++ es) ↔ AllErrors ds ∧ AllErrors es := List.forall_mem_append

theorem allErrors_nil : AllErrors [] := fun _ h => nomatch h

theorem AllErrors.noErrors_iff {ds : List Diagnostic} (h : AllErrors ds) :
    NoErrors ds ↔ ds = [] := by
  constructor
  · intro hn
    refine List.eq_nil_iff_forall_not_mem.2 fun d hd => ?_
    have := hn d hd
    rw [h d hd] at this
    cases this
  · rintro rfl d hd
    cases hd

def Problem.IsError (p : Problem) : Prop := p.code.severity = .error

def Says (P : Problem → Prop) (ds : List Diagnostic) : Prop :=
  ∀ d ∈ ds, ∃ p unit span, P p ∧ d = Problem.located p unit span

section

variable {P Q : Problem → Prop} {ds es : List Diagnostic}

theorem says_nil : Says P [] := fun _ h => nomatch h

theorem says_append : Says P (ds ++ es) ↔ Says P ds ∧ Says P es := List.forall_mem_append

theorem says_singleton {p : Problem} (h : P p) (unit : Nat) (span : Span) :
    Says P [p.located unit span] :=
  List.forall_mem_singleton.2 ⟨p, unit, span, h, rfl⟩

theorem says_flatMap {α : Type} {xs : List α} {f : α → List Diagnostic}
    (h : ∀ x ∈ xs, Says P (f x)) : Says P (xs.flatMap f) := by
  intro d hd
  obtain ⟨x, hx, hd⟩ := List.mem_flatMap.1 hd
  exact h x hx d hd

theorem Says.imp (h : Says P ds) (hPQ : ∀ p, P p → Q p) : Says Q ds := by
  intro d hd
  obtain ⟨p, unit, span, hp, rfl⟩ := h d hd
  exact ⟨p, unit, span, hPQ p hp, rfl⟩

theorem Says.allErrors (h : Says Problem.IsError ds) : AllErrors ds := by
  intro d hd
  obtain ⟨p, unit, span, hp, rfl⟩ := h d hd
  exact beq_iff_eq.2 hp

end

theorem allErrors_singleton {p : Problem} (h : p.code.severity = .error) (unit : Nat)
    (span : Span) : AllErrors [p.located unit span] :=
  (says_singleton h unit span).allErrors

theorem allErrors_flatMap {α : Type} {xs : List α} {f : α → List Diagnostic}
    (h : ∀ x ∈ xs, AllErrors (f x)) : AllErrors (xs.flatMap f) := by
  intro d hd
  obtain ⟨x, hx, hd⟩ := List.mem_flatMap.1 hd
  exact h x hx d hd

/-- Cycles go unnoticed only if there are none. -/
theorem noErrors_cycles {g : Graph} {report : List Nat → List Diagnostic}
    (h : ∀ u < g.size, ∀ rest, ∃ d, report (u :: rest) = [d] ∧ d.isError = true) :
    NoErrors (g.cycles.flatMap report) ↔ g.cycles = [] := by
  constructor
  · intro hn
    refine List.eq_nil_iff_forall_not_mem.2 fun c hc => ?_
    obtain ⟨u, rest, rfl, hu⟩ := Graph.cons_of_mem_cycles hc
    obtain ⟨d, hd, herror⟩ := h u hu rest
    have := hn d (List.mem_flatMap.2 ⟨_, hc, hd ▸ List.mem_cons_self⟩)
    rw [herror] at this
    cases this
  · intro hc d hd
    rw [hc] at hd
    cases hd

/-! ## Text -/

theorem readUnits_blank {source : Source} (h : source.isBlank = true) (unit : Nat)
    (units : List (Source × Nat)) :
    readUnits ((source, unit) :: units) =
      ((readUnits units).1, ⟨.blankSourceSkipped, (Problem.blankSource unit).message, none⟩ ::
        (readUnits units).2) := by
  simp only [readUnits, h, if_true, Problem.code]

theorem readUnits_text {source : Source} (h : source.isBlank = false) (unit : Nat)
    (units : List (Source × Nat)) :
    readUnits ((source, unit) :: units) =
      ((unit, (Script.parse source.text).1) :: (readUnits units).1,
        (Script.parse source.text).2.map (fun e => (Problem.malformed e).located unit e.span) ++
          (readUnits units).2) := by
  simp only [readUnits, h, Bool.false_eq_true, if_false]

theorem noErrors_readUnits (units : List (Source × Nat)) :
    NoErrors (readUnits units).2 ↔
      ∀ u ∈ units, u.1.isBlank = false → (Script.parse u.1.text).2 = [] := by
  induction units with
  | nil => exact iff_of_true (fun _ h => nomatch h) (fun _ h => nomatch h)
  | cons u units ih =>
    obtain ⟨source, unit⟩ := u
    rw [List.forall_mem_cons, ← ih]
    cases hblank : source.isBlank with
    | true =>
      rw [readUnits_blank hblank, NoErrors, List.forall_mem_cons]
      exact and_congr (iff_of_true rfl fun h => nomatch h) Iff.rfl
    | false =>
      have herrors : AllErrors ((Script.parse source.text).2.map
          fun e => (Problem.malformed e).located unit e.span) := by
        intro d hd
        obtain ⟨e, -, rfl⟩ := List.mem_map.1 hd
        rfl
      rw [readUnits_text hblank, noErrors_append, herrors.noErrors_iff, List.map_eq_nil_iff]
      exact and_congr_left fun _ => ⟨fun h _ => h, fun h => h rfl⟩

theorem code_of_mem_readUnits {units : List (Source × Nat)} :
    ∀ d ∈ (readUnits units).2, d.code = .blankSourceSkipped ∨ d.code = .malformed := by
  induction units with
  | nil => exact fun _ hd => nomatch hd
  | cons u units ih =>
    obtain ⟨source, unit⟩ := u
    cases hblank : source.isBlank with
    | true =>
      rw [readUnits_blank hblank]
      exact List.forall_mem_cons.2 ⟨.inl rfl, ih⟩
    | false =>
      rw [readUnits_text hblank]
      exact List.forall_mem_append.2 ⟨List.forall_mem_map.2 fun _ _ => .inr rfl, ih⟩

/-- The declarations of the units with the numbers of their units. -/
def declared (units : List (Nat × Script)) : List (Nat × Script.Item) :=
  units.flatMap fun u => u.2.items.map fun item => (u.1, item)

theorem declared_readUnits (units : List (Source × Nat)) :
    (declared (readUnits units).1).map Prod.snd = Source.items (units.map Prod.fst) := by
  induction units with
  | nil => rfl
  | cons u units ih =>
    obtain ⟨source, unit⟩ := u
    cases hblank : source.isBlank with
    | true =>
      rw [readUnits_blank hblank, ih]
      simp [Source.items, hblank]
    | false =>
      have hitems : ((Script.parse source.text).1.items.map fun item => (unit, item)).map Prod.snd =
          (Script.parse source.text).1.items := by
        rw [List.map_map]
        exact List.map_id _
      rw [readUnits_text hblank, declared, List.flatMap_cons, List.map_append, ← declared, ih,
        hitems]
      simp [Source.items, hblank]

/-! ## Declarations -/

/-- What can be wrong with a declaration, given those before it. -/
inductive Problem.OfDeclaration : Problem → Prop where
  | conflict (type : String) : OfDeclaration (.conflictingModifiers type)
  | builtin (type : String) : OfDeclaration (.builtinName type)
  | type (name : String) : OfDeclaration (.duplicateType name)
  | constant (name : String) : OfDeclaration (.duplicateConstant name)

theorem Problem.OfDeclaration.isError {p : Problem} (h : p.OfDeclaration) : p.IsError := by
  cases h <;> rfl

namespace Declarations

def typesOf (items : List (Nat × Script.Item)) : List (Declared Script.TypeDecl) :=
  items.filterMap fun i => i.2.type?.map (Declared.mk i.1)

def constsOf (items : List (Nat × Script.Item)) : List (Declared Script.ConstDecl) :=
  items.filterMap fun i => i.2.const?.map (Declared.mk i.1)

theorem decls_typesOf (items : List (Nat × Script.Item)) :
    (typesOf items).map (·.decl) = (items.map Prod.snd).filterMap Script.Item.type? := by
  induction items with
  | nil => rfl
  | cons i items ih =>
    obtain ⟨unit, item⟩ := i
    cases item with
    | type t => exact congrArg (t :: ·) ih
    | const c => exact ih

theorem decls_constsOf (items : List (Nat × Script.Item)) :
    (constsOf items).map (·.decl) = (items.map Prod.snd).filterMap Script.Item.const? := by
  induction items with
  | nil => rfl
  | cons i items ih =>
    obtain ⟨unit, item⟩ := i
    cases item with
    | type t => exact ih
    | const c => exact congrArg (c :: ·) ih

def typeNames (d : Declarations) : List String := d.types.map (·.decl.name.name)

def constNames (d : Declarations) : List String := d.constants.map (·.decl.name.name)

theorem isSome_typeId? (d : Declarations) (n : String) :
    (d.typeId? n).isSome = true ↔ n ∈ d.typeNames := by
  simp [typeId?, typeNames, List.findIdx?_isSome]

theorem isSome_constId? (d : Declarations) (n : String) :
    (d.constId? n).isSome = true ↔ n ∈ d.constNames := by
  simp [constId?, constNames, List.findIdx?_isSome]

/-- A sealed abstract type makes no sense. -/
def Conflicting (t : Script.TypeDecl) : Prop :=
  t.modifiers.isSealed = true ∧ t.modifiers.isAbstract = true

instance (t : Script.TypeDecl) : Decidable (Conflicting t) :=
  inferInstanceAs (Decidable (_ ∧ _))

/-- Nothing is wrong with these declarations after those that are there. -/
structure Admits (d : Declarations) (ts : List (Declared Script.TypeDecl))
    (cs : List (Declared Script.ConstDecl)) : Prop where
  types : (d.typeNames ++ ts.map (·.decl.name.name)).Nodup
  notBuiltin : ∀ t ∈ ts, Kind.ofName? t.decl.name.name = none
  modifiers : ∀ t ∈ ts, ¬ Conflicting t.decl
  consts : (d.constNames ++ cs.map (·.decl.name.name)).Nodup

theorem addType_of_new {d : Declarations} {t : Script.TypeDecl} (hc : ¬ Conflicting t)
    (hb : Kind.ofName? t.name.name = none) (hn : t.name.name ∉ d.typeNames) (unit : Nat) :
    d.addType unit t = ({ d with types := d.types ++ [⟨unit, t⟩] }, []) := by
  have hid : (d.typeId? t.name.name).isSome = false :=
    Bool.eq_false_iff.2 fun h => hn ((d.isSome_typeId? _).1 h)
  have hconflict : (t.modifiers.isSealed && t.modifiers.isAbstract) = false :=
    Bool.eq_false_iff.2 fun h => hc (Bool.and_eq_true_iff.1 h)
  simp [addType, hb, hid, hconflict]

theorem new_of_addType {d : Declarations} {t : Script.TypeDecl} {unit : Nat}
    (h : (d.addType unit t).2 = []) :
    ¬ Conflicting t ∧ Kind.ofName? t.name.name = none ∧ t.name.name ∉ d.typeNames := by
  unfold addType at h
  dsimp only at h
  split at h
  · simp at h
  · rename_i hb
    split at h
    · simp at h
    · rename_i hn
      refine ⟨fun hc => ?_, by simpa using hb, fun hm => hn ((d.isSome_typeId? _).2 hm)⟩
      rw [if_pos (Bool.and_eq_true_iff.2 hc)] at h
      cases h

theorem addConst_of_new {d : Declarations} {c : Script.ConstDecl}
    (hn : c.name.name ∉ d.constNames) (unit : Nat) :
    d.addConst unit c = ({ d with constants := d.constants ++ [⟨unit, c⟩] }, []) := by
  have hid : (d.constId? c.name.name).isSome = false :=
    Bool.eq_false_iff.2 fun h => hn ((d.isSome_constId? _).1 h)
  simp [addConst, hid]

theorem new_of_addConst {d : Declarations} {c : Script.ConstDecl} {unit : Nat}
    (h : (d.addConst unit c).2 = []) : c.name.name ∉ d.constNames := by
  unfold addConst at h
  split at h
  · cases h
  · rename_i hn
    exact fun hm => hn ((d.isSome_constId? _).2 hm)

theorem says_add (d : Declarations) (unit : Nat) (item : Script.Item) :
    Says Problem.OfDeclaration (d.add unit item).2 := by
  cases item with
  | type t =>
    have hconflict : Says Problem.OfDeclaration
        (if t.modifiers.isSealed && t.modifiers.isAbstract
          then [(Problem.conflictingModifiers t.name.name).located unit t.span] else []) := by
      split
      · exact says_singleton (.conflict _) unit t.span
      · exact says_nil
    show Says Problem.OfDeclaration (d.addType unit t).2
    unfold addType
    dsimp only
    split
    · exact says_append.2 ⟨hconflict, says_singleton (.builtin _) unit _⟩
    · split
      · exact says_append.2 ⟨hconflict, says_singleton (.type _) unit _⟩
      · exact hconflict
  | const c =>
    show Says Problem.OfDeclaration (d.addConst unit c).2
    unfold addConst
    split
    · exact says_singleton (.constant _) unit _
    · exact says_nil

theorem says_addAll (items : List (Nat × Script.Item)) :
    ∀ d : Declarations, Says Problem.OfDeclaration (d.addAll items).2 := by
  induction items with
  | nil => exact fun _ => says_nil
  | cons i items ih =>
    intro d
    exact says_append.2 ⟨d.says_add i.1 i.2, ih _⟩

theorem allErrors_addAll (items : List (Nat × Script.Item)) (d : Declarations) :
    AllErrors (d.addAll items).2 :=
  ((says_addAll items d).imp fun _ h => h.isError).allErrors

theorem admits_type_iff {d : Declarations} {u : Nat} {t : Script.TypeDecl}
    {ts : List (Declared Script.TypeDecl)} {cs : List (Declared Script.ConstDecl)} :
    d.Admits (⟨u, t⟩ :: ts) cs ↔
      (¬ Conflicting t ∧ Kind.ofName? t.name.name = none ∧ t.name.name ∉ d.typeNames) ∧
        Admits { d with types := d.types ++ [⟨u, t⟩] } ts cs := by
  have hnames : typeNames { d with types := d.types ++ [⟨u, t⟩] } = d.typeNames ++ [t.name.name] :=
    List.map_append
  constructor
  · intro h
    have hmem : t.name.name ∉ d.typeNames := fun hm =>
      (List.nodup_append.1 h.types).2.2 _ hm _ List.mem_cons_self rfl
    refine ⟨⟨h.modifiers _ List.mem_cons_self, h.notBuiltin _ List.mem_cons_self, hmem⟩, ?_,
      fun x hx => h.notBuiltin x (List.mem_cons_of_mem _ hx),
      fun x hx => h.modifiers x (List.mem_cons_of_mem _ hx), h.consts⟩
    rw [hnames, List.append_assoc]
    exact h.types
  · intro h
    refine ⟨?_, List.forall_mem_cons.2 ⟨h.1.2.1, h.2.notBuiltin⟩,
      List.forall_mem_cons.2 ⟨h.1.1, h.2.modifiers⟩, h.2.consts⟩
    have := h.2.types
    rwa [hnames, List.append_assoc] at this

theorem admits_const_iff {d : Declarations} {u : Nat} {c : Script.ConstDecl}
    {ts : List (Declared Script.TypeDecl)} {cs : List (Declared Script.ConstDecl)} :
    d.Admits ts (⟨u, c⟩ :: cs) ↔
      c.name.name ∉ d.constNames ∧
        Admits { d with constants := d.constants ++ [⟨u, c⟩] } ts cs := by
  have hnames : constNames { d with constants := d.constants ++ [⟨u, c⟩] } =
      d.constNames ++ [c.name.name] := List.map_append
  constructor
  · intro h
    refine ⟨fun hm => (List.nodup_append.1 h.consts).2.2 _ hm _ List.mem_cons_self rfl,
      h.types, h.notBuiltin, h.modifiers, ?_⟩
    rw [hnames, List.append_assoc]
    exact h.consts
  · intro h
    refine ⟨h.2.types, h.2.notBuiltin, h.2.modifiers, ?_⟩
    have := h.2.consts
    rwa [hnames, List.append_assoc] at this

theorem nodup_snoc {names : List String} (h : names.Nodup) {name : String} (hn : name ∉ names) :
    (names ++ [name]).Nodup := by
  refine List.nodup_append.2 ⟨h, List.pairwise_singleton _ name, fun a ha b hb hab => hn ?_⟩
  rwa [← List.mem_singleton.1 hb, ← hab]

/-- The names are checked one after the other against those before them. -/
theorem addAll_eq_nil (items : List (Nat × Script.Item)) :
    ∀ d : Declarations, d.typeNames.Nodup → d.constNames.Nodup →
      ((d.addAll items).2 = [] ↔ d.Admits (typesOf items) (constsOf items)) := by
  induction items with
  | nil =>
    intro d ht hc
    have hadmits : d.Admits [] [] :=
      ⟨by simpa using ht, fun _ h => (nomatch h), fun _ h => (nomatch h), by simpa using hc⟩
    exact iff_of_true rfl hadmits
  | cons i items ih =>
    intro d ht hc
    obtain ⟨u, item⟩ := i
    show (d.add u item).2 ++ ((d.add u item).1.addAll items).2 = [] ↔ _
    rw [List.append_eq_nil_iff]
    cases item with
    | type t =>
      have hrest (hn : t.name.name ∉ d.typeNames) :
          ((addAll { d with types := d.types ++ [⟨u, t⟩] } items).2 = [] ↔
            Admits { d with types := d.types ++ [⟨u, t⟩] } (typesOf items) (constsOf items)) := by
        refine ih _ ?_ hc
        rw [typeNames, List.map_append]
        exact nodup_snoc ht hn
      refine Iff.trans ?_ admits_type_iff.symm
      constructor
      · rintro ⟨hfirst, hothers⟩
        obtain ⟨hm, hb, hn⟩ := new_of_addType hfirst
        rw [add, addType_of_new hm hb hn] at hothers
        exact ⟨⟨hm, hb, hn⟩, (hrest hn).1 hothers⟩
      · rintro ⟨⟨hm, hb, hn⟩, hothers⟩
        rw [add, addType_of_new hm hb hn]
        exact ⟨rfl, (hrest hn).2 hothers⟩
    | const c =>
      have hrest (hn : c.name.name ∉ d.constNames) :
          ((addAll { d with constants := d.constants ++ [⟨u, c⟩] } items).2 = [] ↔
            Admits { d with constants := d.constants ++ [⟨u, c⟩] } (typesOf items)
              (constsOf items)) := by
        refine ih _ ht ?_
        rw [constNames, List.map_append]
        exact nodup_snoc hc hn
      refine Iff.trans ?_ admits_const_iff.symm
      constructor
      · rintro ⟨hfirst, hothers⟩
        have hn := new_of_addConst hfirst
        rw [add, addConst_of_new hn] at hothers
        exact ⟨hn, (hrest hn).1 hothers⟩
      · rintro ⟨hn, hothers⟩
        rw [add, addConst_of_new hn]
        exact ⟨rfl, (hrest hn).2 hothers⟩

theorem addAll_eq (items : List (Nat × Script.Item)) :
    ∀ d : Declarations, (d.addAll items).2 = [] →
      (d.addAll items).1 = ⟨d.types ++ typesOf items, d.constants ++ constsOf items⟩ := by
  induction items with
  | nil =>
    intro d _
    simp [addAll, typesOf, constsOf]
  | cons i items ih =>
    intro d h
    obtain ⟨u, item⟩ := i
    change (d.add u item).2 ++ ((d.add u item).1.addAll items).2 = [] at h
    show ((d.add u item).1.addAll items).1 = _
    obtain ⟨hfirst, hothers⟩ := List.append_eq_nil_iff.1 h
    cases item with
    | type t =>
      obtain ⟨hm, hb, hn⟩ := new_of_addType hfirst
      have hadd : (d.add u (.type t)).1 = { d with types := d.types ++ [⟨u, t⟩] } :=
        congrArg Prod.fst (addType_of_new hm hb hn u)
      rw [hadd] at hothers ⊢
      rw [ih _ hothers, List.append_assoc]
      rfl
    | const c =>
      have hadd : (d.add u (.const c)).1 = { d with constants := d.constants ++ [⟨u, c⟩] } :=
        congrArg Prod.fst (addConst_of_new (new_of_addConst hfirst) u)
      rw [hadd] at hothers ⊢
      rw [ih _ hothers, List.append_assoc]
      rfl

theorem mem_types_of_add {d : Declarations} {unit : Nat} {item : Script.Item}
    {t : Declared Script.TypeDecl} (h : t ∈ (d.add unit item).1.types) :
    t ∈ d.types ∨ (t.unit, .type t.decl) = (unit, item) := by
  cases item with
  | const c =>
    unfold add addConst at h
    dsimp only at h
    split at h <;> exact .inl h
  | type u =>
    unfold add addType at h
    dsimp only at h
    split at h
    · exact .inl h
    · split at h
      · exact .inl h
      · rcases List.mem_append.1 h with h | h
        · exact .inl h
        · obtain rfl := List.mem_singleton.1 h
          exact .inr rfl

theorem mem_constants_of_add {d : Declarations} {unit : Nat} {item : Script.Item}
    {c : Declared Script.ConstDecl} (h : c ∈ (d.add unit item).1.constants) :
    c ∈ d.constants ∨ (c.unit, .const c.decl) = (unit, item) := by
  cases item with
  | type u =>
    unfold add addType at h
    dsimp only at h
    split at h
    · exact .inl h
    · split at h <;> exact .inl h
  | const k =>
    unfold add addConst at h
    dsimp only at h
    split at h
    · exact .inl h
    · rcases List.mem_append.1 h with h | h
      · exact .inl h
      · obtain rfl := List.mem_singleton.1 h
        exact .inr rfl

/-- What is kept has been declared. -/
theorem mem_of_addAll (items : List (Nat × Script.Item)) :
    ∀ d : Declarations,
      (∀ t ∈ (d.addAll items).1.types, t ∈ d.types ∨ (t.unit, .type t.decl) ∈ items) ∧
      ∀ c ∈ (d.addAll items).1.constants,
        c ∈ d.constants ∨ (c.unit, .const c.decl) ∈ items := by
  induction items with
  | nil => exact fun d => ⟨fun t ht => .inl ht, fun c hc => .inl hc⟩
  | cons i items ih =>
    obtain ⟨unit, item⟩ := i
    intro d
    obtain ⟨htypes, hconsts⟩ := ih (d.add unit item).1
    simp only [List.mem_cons]
    constructor
    · intro t ht
      rcases htypes t ht with ht | ht
      · exact (mem_types_of_add ht).imp_right .inl
      · exact .inr (.inr ht)
    · intro c hc
      rcases hconsts c hc with hc | hc
      · exact (mem_constants_of_add hc).imp_right .inl
      · exact .inr (.inr hc)

end Declarations

end Linkage
