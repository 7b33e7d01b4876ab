import Linkage.Proofs.Script.Beside

/-!
# Linkage.Proofs.Script.Recovery

`parse_append`: what is wrong with the declarations of one source has no effect on those of another
one after it.

Recovery skips braces with what is between them, so it cannot stop before the end of a source whose
braces are well nested but at the start of a declaration, and it goes no further than the start of
the next source.

* `Item.unplaced` — a declaration without its spans.
* `fieldsUpTo_beside`, `item_beside`, `skipItem_beside` — the readers of declarations, and what
  is skipped after an error.
* `itemsUpTo_beside` — reading the longer stream gives what reading the shorter one gives, and then
  what comes at the seam.
-/

namespace Linkage
namespace Script

/-! ## Without spans -/

def FieldDecl.unplaced (f : FieldDecl) : FieldDecl := ⟨f.name.unplaced, f.type.unplaced, nowhere⟩

def TypeDecl.unplaced (t : TypeDecl) : TypeDecl :=
  ⟨t.modifiers, t.name.unplaced, t.base.map Path.unplaced, t.fields.map FieldDecl.unplaced, nowhere⟩

def ConstDecl.unplaced (c : ConstDecl) : ConstDecl :=
  ⟨c.name.unplaced, c.value.unplaced, nowhere⟩

def Item.unplaced : Item → Item
  | .type t => .type t.unplaced
  | .const c => .const c.unplaced

/-! ## Skipping -/

namespace State

variable {j : Seam} {n low : Nat}

theorem skipField_stop {s : State} (h : s.current.kind = .eof ∨ s.current.kind = .rightBrace)
    (bound : List Piece) : skipField bound s = s := by
  cases bound with
  | nil => rfl
  | cons p bound =>
    rcases h with h | h
    · simp only [skipField, h]
    · simp only [skipField, h]

theorem skipField_step {s : State} (hend : s.current.kind ≠ .eof)
    (hbrace : s.current.kind ≠ .rightBrace) (p : Piece) (bound : List Piece) :
    skipField (p :: bound) s =
      if s.current.kind = .semicolon then s.bump else skipField bound s.bump := by
  rw [skipField]
  split
  · exact absurd ‹_› hend
  · exact absurd ‹_› hbrace
  · rw [if_pos ‹_›]
  · rw [if_neg ‹_›]

/-- Inside a body both readings skip to the same token, and stay inside. -/
theorem skipField_beside : ∀ (m : Nat) {bound bound' : List Piece} {s t : State},
    m ≤ bound.length → m ≤ bound'.length → Apart j n (low + 1) m s t →
      Apart j n (low + 1) m (skipField bound s) (skipField bound' t) ∧
        (¬ (s.current.kind = .eof ∨ s.current.kind = .rightBrace) →
          Apart j n (low + 1) (m - 1) (skipField bound s) (skipField bound' t)) := by
  intro m
  induction m with
  | zero =>
    intro bound bound' s t _ _ hst
    have hend := hst.ended_of_zero.short
    rw [skipField_stop (.inl hend), skipField_stop (.inl (hst.kind_eq ▸ hend))]
    exact ⟨hst, fun _ => hst⟩
  | succ m ih =>
    intro bound bound' s t hbound hbound' hst
    by_cases hstop : s.current.kind = .eof ∨ s.current.kind = .rightBrace
    · rw [skipField_stop hstop, skipField_stop (hst.kind_eq ▸ hstop)]
      exact ⟨hst, absurd hstop⟩
    · obtain ⟨hend, hbrace⟩ := not_or.1 hstop
      obtain ⟨p, bound, rfl⟩ := List.exists_cons_of_length_pos (Nat.zero_lt_of_lt hbound)
      obtain ⟨p', bound', rfl⟩ := List.exists_cons_of_length_pos (Nat.zero_lt_of_lt hbound')
      have hbump : Apart j n (low + 1) m s.bump t.bump :=
        (hst.bump (hst.inStep_of_kind hend rfl)).lower (Token.Kind.le_braces hbrace _)
      have hrest : Apart j n (low + 1) m (skipField (p :: bound) s)
          (skipField (p' :: bound') t) := by
        rw [skipField_step hend hbrace, skipField_step (hst.kind_eq ▸ hend)
          (hst.kind_eq ▸ hbrace), ← hst.kind_eq]
        split
        · exact hbump
        · exact (ih (Nat.le_of_succ_le_succ hbound) (Nat.le_of_succ_le_succ hbound') hbump).1
      exact ⟨hrest.of_le (Nat.le_succ m), fun _ => hrest⟩

theorem skipItem_stop {s : State} {depth : Nat}
    (h : s.current.kind = .eof ∨ s.current.kind.startsItem = true ∧ depth = 0)
    (bound : List Piece) : skipItem bound depth s = s := by
  cases bound with
  | nil => rfl
  | cons p bound =>
    rcases h with h | ⟨h, rfl⟩
    · simp only [skipItem, h]
    · rcases Token.Kind.startsItem_cases h with h | h | h | h
      all_goals
        simp only [skipItem, h]
        rfl

theorem skipItem_step {s : State} {depth : Nat} (hend : s.current.kind ≠ .eof)
    (hitem : ¬ (s.current.kind.startsItem = true ∧ depth = 0)) (p : Piece) (bound : List Piece) :
    skipItem (p :: bound) depth s = skipItem bound (s.current.kind.braces depth) s.bump := by
  have hskip : (s.current.kind.startsItem && depth == 0) = false := by
    simpa using hitem
  rw [skipItem]
  generalize s.current.kind = k at hend hskip ⊢
  cases k <;> first
    | exact absurd rfl hend
    | rfl
    | simp only [hskip, Bool.false_eq_true, if_false, Token.Kind.braces]

/--
Both readings skip to the same token, or to the seam: the depth is no more than the number of open
braces, so there it is zero.
-/
theorem skipItem_beside : ∀ (m : Nat) {bound bound' : List Piece} {depth : Nat} {s t : State},
    m ≤ bound.length → m ≤ bound'.length → Apart j n depth m s t →
      Apart j n 0 m (skipItem bound depth s) (skipItem bound' depth t) := by
  intro m
  induction m with
  | zero =>
    intro bound bound' depth s t _ _ hst
    have hended := hst.ended_of_zero
    rw [skipItem_stop (.inl hended.short), skipItem_stop (hst.ended_cases hended)]
    exact hst.lower (Nat.zero_le _)
  | succ m ih =>
    intro bound bound' depth s t hbound hbound' hst
    rcases hst.cases with ⟨hstep, -⟩ | hended
    · have hkind := hstep.alike.kind
      by_cases hitem : s.current.kind.startsItem = true ∧ depth = 0
      · rw [skipItem_stop (.inr hitem), skipItem_stop (.inr (hkind ▸ hitem))]
        exact hst.lower (Nat.zero_le _)
      · obtain ⟨p, bound, rfl⟩ := List.exists_cons_of_length_pos (Nat.zero_lt_of_lt hbound)
        obtain ⟨p', bound', rfl⟩ := List.exists_cons_of_length_pos (Nat.zero_lt_of_lt hbound')
        rw [skipItem_step hstep.notEnd hitem, skipItem_step (hkind ▸ hstep.notEnd) (hkind ▸ hitem),
          ← hkind]
        exact (ih (Nat.le_of_succ_le_succ hbound) (Nat.le_of_succ_le_succ hbound')
          (hst.bump hstep)).of_le (Nat.le_succ m)
    · rw [skipItem_stop (.inl hended.short), skipItem_stop (hst.ended_cases hended)]
      exact hst.lower (Nat.zero_le _)

theorem recoverField_beside {m : Nat} {s t : State} (h : Apart j n (low + 1) m s t) :
    Apart j n (low + 1) m s.recoverField t.recoverField := by
  obtain ⟨k, hk, hst, hs, ht⟩ := h.exists_rest
  exact (skipField_beside k hs ht hst).1.of_le hk

/-- Something is skipped unless the body ends at once. -/
theorem recoverField_shrinks {m : Nat} {s t : State} (h : Apart j n (low + 1) m s t)
    (hgo : ¬ (s.current.kind = .eof ∨ s.current.kind = .rightBrace)) :
    Apart j n (low + 1) (m - 1) s.recoverField t.recoverField := by
  obtain ⟨k, hk, hst, hs, ht⟩ := h.exists_rest
  exact ((skipField_beside k hs ht hst).2 hgo).of_le (Nat.sub_le_sub_right hk 1)

theorem recoverItem_beside {m : Nat} {s t : State} (h : Apart j n 0 m s t) :
    Apart j n 0 m s.recoverItem t.recoverItem := by
  obtain ⟨k, hk, hst, hs, ht⟩ := h.exists_rest
  exact (skipItem_beside k hs ht hst).of_le hk

end State

namespace Reader

variable {j : Seam} {n low m : Nat}

/-! ## Fields -/

/-- What comes after the name of a field. -/
def fieldAfter (name : Ident) : Reader FieldDecl := do
  let _ ← expect .colon
  let type ← path
  let last ← expect .semicolon
  return ⟨name, type, name.span.merge last.span⟩

theorem keeps_fieldAfter {x y : Ident} (h : x.unplaced = y.unplaced) :
    Keeps j n low (fun f g => f.unplaced = g.unplaced) (fieldAfter x) (fieldAfter y) := by
  refine (keeps_expect (by decide) rfl fun _ => rfl).bind fun _ _ _ => ?_
  refine keeps_path.bind fun p q hpq => ?_
  refine (keeps_expect (by decide) rfl fun _ => rfl).bind fun _ _ _ => keeps_pure ?_
  simp only [FieldDecl.unplaced, h, hpq]

theorem field_of_identifier {s : State} (h : s.current.kind = .identifier) :
    field s = fieldAfter (identOf s.current) s.bump := by
  show Reader.bind ident fieldAfter s = _
  simp only [Reader.bind, ident, h, if_true]
  rfl

theorem field_of_other {s : State} (h : s.current.kind ≠ .identifier) :
    field s = .error ⟨.expectedIdentifier s.current, s.current.span⟩ s := by
  show Reader.bind ident fieldAfter s = _
  simp only [Reader.bind, ident, h, if_false]

theorem fieldsUpTo_stop {s : State} (h : s.current.kind = .rightBrace ∨ s.current.kind = .eof)
    (bound : List Piece) : fieldsUpTo bound s = ([], s) := by
  cases bound with
  | nil => rfl
  | cons p bound => rw [fieldsUpTo, if_pos h]

theorem fieldsUpTo_beside : ∀ (m : Nat) {bound bound' : List Piece} {s t : State},
    m ≤ bound.length → m ≤ bound'.length → Apart j n (low + 1) m s t →
      (fieldsUpTo bound s).1.map FieldDecl.unplaced =
          (fieldsUpTo bound' t).1.map FieldDecl.unplaced ∧
        Apart j n (low + 1) m (fieldsUpTo bound s).2 (fieldsUpTo bound' t).2 := by
  intro m
  induction m with
  | zero =>
    intro bound bound' s t _ _ hst
    have hend := hst.ended_of_zero.short
    rw [fieldsUpTo_stop (.inr hend), fieldsUpTo_stop (.inr (hst.kind_eq ▸ hend))]
    exact ⟨rfl, hst⟩
  | succ m ih =>
    intro bound bound' s t hbound hbound' hst
    have hkind := hst.kind_eq
    by_cases hstop : s.current.kind = .rightBrace ∨ s.current.kind = .eof
    · rw [fieldsUpTo_stop hstop, fieldsUpTo_stop (hkind ▸ hstop)]
      exact ⟨rfl, hst⟩
    · obtain ⟨p, bound, rfl⟩ := List.exists_cons_of_length_pos (Nat.zero_lt_of_lt hbound)
      obtain ⟨p', bound', rfl⟩ := List.exists_cons_of_length_pos (Nat.zero_lt_of_lt hbound')
      have hgo {s t : State} (h : Apart j n (low + 1) m s t) :
          (fieldsUpTo bound s).1.map FieldDecl.unplaced =
              (fieldsUpTo bound' t).1.map FieldDecl.unplaced ∧
            Apart j n (low + 1) (m + 1) (fieldsUpTo bound s).2 (fieldsUpTo bound' t).2 :=
        (ih (Nat.le_of_succ_le_succ hbound) (Nat.le_of_succ_le_succ hbound') h).imp id
          fun h => h.of_le (Nat.le_succ m)
      rw [fieldsUpTo, fieldsUpTo, if_neg hstop, if_neg (hkind ▸ hstop)]
      by_cases hident : s.current.kind = .identifier
      · have hstep := hst.inStep_of_kind (by decide) hident
        have hbump := hst.bump hstep
        rw [hident] at hbump
        rw [field_of_identifier hident, field_of_identifier (hkind ▸ hident)]
        have hname : (identOf s.current).unplaced = (identOf t.current).unplaced := by
          simp only [identOf, Ident.unplaced, hstep.alike.lexeme]
        have hreply := keeps_fieldAfter hname m _ _ hbump
        generalize fieldAfter (identOf s.current) s.bump = a at hreply ⊢
        generalize fieldAfter (identOf t.current) t.bump = b at hreply ⊢
        cases hreply with
        | ok hfg hst =>
          obtain ⟨hfields, hrest⟩ := hgo hst
          exact ⟨congrArg₂ List.cons hfg hfields, hrest⟩
        | error hst => exact hgo (State.recoverField_beside (hst.report _ _))
      · rw [field_of_other hident, field_of_other (hkind ▸ hident)]
        exact hgo (State.recoverField_shrinks (hst.report _ _) (mt Or.symm hstop))

theorem keeps_fields : Keeps j n (low + 1)
    (fun fs gs => fs.map FieldDecl.unplaced = gs.map FieldDecl.unplaced) fields fields := by
  intro m s t hst
  obtain ⟨k, hk, hst, hs, ht⟩ := hst.exists_rest
  obtain ⟨hfields, hrest⟩ := fieldsUpTo_beside k hs ht hst
  exact .ok hfields (hrest.of_le hk)

/-! ## Types -/

theorem modifiersUpTo_stop {s : State} (h : modifier? s.current.kind = none) (bound : List Piece)
    (seen : Modifiers) : modifiersUpTo bound seen s = (seen, s) := by
  cases bound with
  | nil => rfl
  | cons p bound => rw [modifiersUpTo, h]

/-- Past a modifier; one that was seen before is reported. -/
def passModifier (seen ms : Modifiers) (s : State) : State :=
  if seen.has ms then s.bump.report ⟨.duplicateModifier s.current, s.current.span⟩ else s.bump

theorem modifiersUpTo_step {s : State} {ms : Modifiers} (h : modifier? s.current.kind = some ms)
    (p : Piece) (bound : List Piece) (seen : Modifiers) :
    modifiersUpTo (p :: bound) seen s =
      modifiersUpTo bound (seen.union ms) (passModifier seen ms s) := by
  rw [modifiersUpTo, h]
  rfl

theorem modifier?_eq_none {k : Token.Kind} (h : k ≠ .keySealed ∧ k ≠ .keyAbstract) :
    modifier? k = none := by
  unfold modifier?
  split
  · exact absurd rfl h.1
  · exact absurd rfl h.2
  · rfl

theorem braces_of_modifier {k : Token.Kind} (h : modifier? k ≠ none) (low : Nat) :
    k.braces low = low := by
  unfold modifier? at h
  split at h <;> first | rfl | exact absurd rfl h

theorem modifiersUpTo_beside : ∀ (m : Nat) {bound bound' : List Piece} (seen : Modifiers)
    {s t : State}, m ≤ bound.length → m ≤ bound'.length → Apart j n low m s t →
      s.current.kind = t.current.kind →
      (modifiersUpTo bound seen s).1 = (modifiersUpTo bound' seen t).1 ∧
        (modifiersUpTo bound seen s).2.current.kind =
          (modifiersUpTo bound' seen t).2.current.kind ∧
        Apart j n low m (modifiersUpTo bound seen s).2 (modifiersUpTo bound' seen t).2 ∧
        (modifier? s.current.kind ≠ none →
          Apart j n low (m - 1) (modifiersUpTo bound seen s).2
            (modifiersUpTo bound' seen t).2) := by
  intro m
  induction m with
  | zero =>
    intro bound bound' seen s t _ _ hst hkind
    have hnone : modifier? s.current.kind = none := by
      rw [hst.ended_of_zero.short]
      rfl
    rw [modifiersUpTo_stop hnone, modifiersUpTo_stop (hkind ▸ hnone)]
    exact ⟨rfl, hkind, hst, absurd hnone⟩
  | succ m ih =>
    intro bound bound' seen s t hbound hbound' hst hkind
    cases hmodifier : modifier? s.current.kind with
    | none =>
      rw [modifiersUpTo_stop hmodifier, modifiersUpTo_stop (hkind ▸ hmodifier)]
      exact ⟨rfl, hkind, hst, absurd rfl⟩
    | some ms =>
      have hsome : modifier? s.current.kind ≠ none := by simp [hmodifier]
      have hend : s.current.kind ≠ .eof := by
        intro hend
        rw [hend] at hmodifier
        cases hmodifier
      obtain ⟨p, bound, rfl⟩ := List.exists_cons_of_length_pos (Nat.zero_lt_of_lt hbound)
      obtain ⟨p', bound', rfl⟩ := List.exists_cons_of_length_pos (Nat.zero_lt_of_lt hbound')
      have hbump := hst.bump (hst.inStep_of_kind hend rfl)
      rw [braces_of_modifier hsome] at hbump
      have hpast : Apart j n low m (passModifier seen ms s) (passModifier seen ms t) ∧
          (passModifier seen ms s).current.kind = (passModifier seen ms t).current.kind := by
        have hnext := hst.kind_bump_eq hsome
        unfold passModifier
        cases seen.has ms with
        | true => exact ⟨hbump.report _ _, hnext⟩
        | false => exact ⟨hbump, hnext⟩
      rw [modifiersUpTo_step hmodifier, modifiersUpTo_step (hkind ▸ hmodifier)]
      obtain ⟨hsame, hlast, hapart, -⟩ := ih (seen.union ms) (Nat.le_of_succ_le_succ hbound)
        (Nat.le_of_succ_le_succ hbound') hpast.1 hpast.2
      exact ⟨hsame, hlast, hapart.of_le (Nat.le_succ m), fun _ => hapart⟩

/-- After the modifiers both readings are at the same kind of token, and if nothing was passed that
is the one that a type begins with. -/
def AfterModifiers (j : Seam) (n low m : Nat) (s t : State) : Prop :=
  s.current.kind = t.current.kind ∧
    (Apart j n low m s t ∨ Apart j n low (m + 1) s t ∧ s.current.kind = .keyType)

theorem together_modifiers {x y : Token} (hxy : x.Alike y)
    (hx : x.kind = .keyType ∨ modifier? x.kind ≠ none) :
    Together (At x y (Apart j n low (m + 1))) (AfterModifiers j n low m) E Eq modifiers
      modifiers := by
  rintro s t ⟨hst, rfl, rfl⟩
  obtain ⟨k, hk, hst', hs, ht⟩ := hst.exists_rest
  obtain ⟨hsame, hlast, -, hless⟩ := modifiersUpTo_beside k .empty hs ht hst' hxy.kind
  refine .ok hsame ⟨hlast, ?_⟩
  rcases hx with hx | hx
  · have hnone : modifier? s.current.kind = none := by
      rw [hx]
      rfl
    rw [modifiersUpTo_stop hnone, modifiersUpTo_stop (hxy.kind ▸ hnone)]
    exact .inr ⟨hst, hx⟩
  · exact .inl ((hless hx).of_le (Nat.sub_le_of_le_add hk))

theorem together_keyType : Together (AfterModifiers j n low m) (Apart j n low m) (Apart j n low m)
    Token.Alike (expect .keyType) (expect .keyType) := by
  rintro s t ⟨hkind, hst⟩
  by_cases hs : s.current.kind = .keyType
  · have ht := hkind ▸ hs
    have hpast {m : Nat} (hst : Apart j n low m s t) : s.current.Alike t.current ∧
        Apart j n low (m - 1) s.bump t.bump := by
      have hstep := hst.inStep_of_kind (by decide) hs
      have hbump := hst.bump hstep
      rw [hs] at hbump
      exact ⟨hstep.alike, hbump⟩
    simp only [expect, hs, ht, if_true]
    rcases hst with hst | ⟨hst, -⟩
    · exact .ok (hpast hst).1 ((hpast hst).2.of_le (Nat.sub_le m 1))
    · exact .ok (hpast hst).1 (hpast hst).2
  · have ht : t.current.kind ≠ .keyType := hkind ▸ hs
    simp only [expect, hs, ht, if_false]
    rcases hst with hst | ⟨-, hst⟩
    · exact .error hst
    · exact absurd hst hs

/-- What comes after the name and the base of a type. -/
def bodyAfter (first : Token) (modifiers : Modifiers) (name : Ident) (base : Option Path) :
    Reader TypeDecl := do
  let _ ← expect .leftBrace
  let fields ← fields
  let last ← expect .rightBrace
  return ⟨modifiers, name, base, fields, first.span.merge last.span⟩

/-- In the body one more brace is open. -/
theorem keeps_bodyAfter (x y : Token) (ms : Modifiers) {name name' : Ident}
    (hname : name.unplaced = name'.unplaced) {base base' : Option Path}
    (hbase : base.map Path.unplaced = base'.map Path.unplaced) :
    Keeps j n low (fun t u => t.unplaced = u.unplaced) (bodyAfter x ms name base)
      (bodyAfter y ms name' base') := by
  intro m
  have hkeep : ∀ s t, Apart j n (low + 1) (m - 1) s t → Apart j n low m s t :=
    fun _ _ h => (h.lower (Nat.le_succ low)).of_le (Nat.sub_le m 1)
  have hopening : Together (Apart j n low m) (Apart j n (low + 1) (m - 1)) (Apart j n low m)
      Token.Alike (expect .leftBrace) (expect .leftBrace) :=
    together_expect (k := .leftBrace) (by decide) rfl
  have hclosing : Together (Apart j n (low + 1) (m - 1)) (Apart j n low (m - 1 - 1))
      (Apart j n (low + 1) (m - 1)) Token.Alike (expect .rightBrace) (expect .rightBrace) :=
    together_expect (k := .rightBrace) (by decide) rfl
  have hfields : Together (Apart j n (low + 1) (m - 1)) (Apart j n (low + 1) (m - 1))
      (Apart j n low m) _ fields fields :=
    (keeps_fields (m - 1)).mono (fun _ _ h => h) hkeep
  have hclosed := hclosing.mono
    (fun _ _ h => h.of_le (Nat.le_trans (Nat.sub_le _ 1) (Nat.sub_le m 1))) hkeep
  refine hopening.bind fun _ _ _ => hfields.bind fun fs gs hfg => hclosed.bind fun _ _ _ => ?_
  exact together_pure (by simp only [TypeDecl.unplaced, hname, hbase, hfg])

/-- What comes after the word `type`. -/
def typeAfter (first : Token) (modifiers : Modifiers) : Reader TypeDecl := do
  let name ← ident
  let base ← if ← skip .keyExtends then some <$> path else pure none
  bodyAfter first modifiers name base

theorem keeps_typeAfter (x y : Token) (ms : Modifiers) :
    Keeps j n low (fun t u => t.unplaced = u.unplaced) (typeAfter x ms) (typeAfter y ms) := by
  refine keeps_ident.bind fun name name' hname => ?_
  refine (keeps_skip (by decide) rfl fun _ => rfl).bind ?_
  rintro based _ rfl
  cases based with
  | true =>
    refine Keeps.bind (R := fun p q => p.map Path.unplaced = q.map Path.unplaced)
      (keeps_path.map fun _ _ hpq => congrArg some hpq) fun base base' hbase => ?_
    exact keeps_bodyAfter x y ms hname hbase
  | false =>
    refine Keeps.bind (R := fun p q => p.map Path.unplaced = q.map Path.unplaced)
      (keeps_pure rfl) fun base base' hbase => ?_
    exact keeps_bodyAfter x y ms hname hbase

theorem together_typeDecl {x y : Token} (hxy : x.Alike y)
    (hx : x.kind = .keyType ∨ modifier? x.kind ≠ none) :
    Together (At x y (Apart j n low (m + 1))) (Apart j n low m) (Apart j n low m)
      (fun t u => t.unplaced = u.unplaced) typeDecl typeDecl := by
  have hdecl : typeDecl = current >>= fun first => modifiers >>= fun ms =>
      expect .keyType >>= fun _ => typeAfter first ms := rfl
  have hbody : Together (At x y (Apart j n low (m + 1))) (Apart j n low m) (Apart j n low m)
      (fun t u => t.unplaced = u.unplaced)
      (modifiers >>= fun ms => expect .keyType >>= fun _ => typeAfter x ms)
      (modifiers >>= fun ms => expect .keyType >>= fun _ => typeAfter y ms) := by
    refine (together_modifiers hxy hx).bind ?_
    rintro ms _ rfl
    exact together_keyType.bind fun _ _ _ => keeps_typeAfter x y ms m
  rw [hdecl]
  rintro s t ⟨hst, rfl, rfl⟩
  exact hbody s t ⟨hst, rfl, rfl⟩

/-! ## Declarations -/

/-- What comes after the word `const`. -/
def constAfter (first : Token) : Reader ConstDecl := do
  let name ← ident
  let _ ← expect .equal
  let value ← expression
  let last ← expect .semicolon
  return ⟨name, value.expr, first.span.merge last.span⟩

theorem keeps_constAfter (x y : Token) :
    Keeps j n low (fun c d => c.unplaced = d.unplaced) (constAfter x) (constAfter y) := by
  refine keeps_ident.bind fun name name' hname => ?_
  refine (keeps_expect (by decide) rfl fun _ => rfl).bind fun _ _ _ => ?_
  refine keeps_expression.bind fun v w hvw => ?_
  refine (keeps_expect (by decide) rfl fun _ => rfl).bind fun _ _ _ => keeps_pure ?_
  simp only [ConstDecl.unplaced, hname, hvw.1]

theorem together_constDecl {x y : Token} (hxy : x.Alike y) (hx : x.kind = .keyConst) :
    Together (At x y (Apart j n low (m + 1))) (Apart j n low m) (Apart j n low m)
      (fun c d => c.unplaced = d.unplaced) constDecl constDecl := by
  have hnext : Together (At x y (Apart j n low (m + 1))) (Apart j n low m) (Apart j n low m)
      (fun a b => a = x ∧ b = y) next next := by
    refine (together_next (by rw [hx]; decide) hxy).mono (fun _ _ h => ?_) fun _ _ h => h
    rw [hx] at h
    exact h
  exact hnext.bind fun a b _ => keeps_constAfter a b m

/-- What comes of a declaration that starts with this token. -/
def itemFrom : Token.Kind → Reader Item
  | .keyConst => .const <$> constDecl
  | .keyType => .type <$> typeDecl
  | .keySealed => .type <$> typeDecl
  | .keyAbstract => .type <$> typeDecl
  | _ => do
    let found ← next
    ofExcept (.error ⟨.expectedDeclaration found, found.span⟩)

theorem item_eq (s : State) : item s = itemFrom s.current.kind s := rfl

/-- Every reading of a declaration, broken ones included, goes past at least one token. -/
theorem item_beside {s t : State} (hst : Apart j n 0 (m + 1) s t) (hstep : InStep s t) :
    Reply.Beside (fun a b => a.unplaced = b.unplaced) (Apart j n 0 m) (Apart j n 0 m) (item s)
      (item t) := by
  have hxy := hstep.alike
  have htype (hx : s.current.kind = .keyType ∨ modifier? s.current.kind ≠ none) :
      Together (At s.current t.current (Apart j n 0 (m + 1))) (Apart j n 0 m) (Apart j n 0 m)
        (fun a b => a.unplaced = b.unplaced) (Item.type <$> typeDecl) (Item.type <$> typeDecl) :=
    (together_typeDecl hxy hx).map fun a b h => by simp only [Item.unplaced, h]
  have hconst (hx : s.current.kind = .keyConst) :
      Together (At s.current t.current (Apart j n 0 (m + 1))) (Apart j n 0 m) (Apart j n 0 m)
        (fun a b => a.unplaced = b.unplaced) (Item.const <$> constDecl)
        (Item.const <$> constDecl) :=
    (together_constDecl hxy hx).map fun a b h => by simp only [Item.unplaced, h]
  have hother : Apart j n 0 m s.bump t.bump :=
    (hst.bump hstep).lower (Nat.zero_le _)
  rw [item_eq, item_eq, ← hxy.kind]
  cases hkind : s.current.kind with
  | keyConst => exact hconst hkind s t ⟨hst, rfl, rfl⟩
  | keyType => exact htype (.inl hkind) s t ⟨hst, rfl, rfl⟩
  | keySealed => exact htype (.inr (by rw [hkind]; exact nofun)) s t ⟨hst, rfl, rfl⟩
  | keyAbstract => exact htype (.inr (by rw [hkind]; exact nofun)) s t ⟨hst, rfl, rfl⟩
  | _ => exact .error hother

theorem itemsUpTo_stop {s : State} (h : s.current.kind = .eof) (bound : List Piece) :
    itemsUpTo bound s = ([], s) := by
  cases bound with
  | nil => rfl
  | cons p bound => rw [itemsUpTo, if_pos h]

/-- The rest is read from `t` on, with enough of a bound for what comes at the seam. -/
def LeadsTo (j : Seam) (n : Nat) (read read' : List Item × State) : Prop :=
  ∃ items room t, read' = (items ++ (itemsUpTo room t).1, (itemsUpTo room t).2) ∧
    items.map Item.unplaced = read.1.map Item.unplaced ∧ j.rest.length ≤ room.length ∧
    Apart j n 0 0 read.2 t

theorem LeadsTo.cons {a b : Item} (hab : a.unplaced = b.unplaced) {read read' : List Item × State}
    (h : LeadsTo j n read read') : LeadsTo j n (a :: read.1, read.2) (b :: read'.1, read'.2) := by
  obtain ⟨items, room, t, rfl, hitems, hroom, hseam⟩ := h
  refine ⟨b :: items, room, t, rfl, ?_, hroom, hseam⟩
  rw [List.map_cons, List.map_cons, hab, hitems]

theorem leadsTo_of_ended {bound bound' : List Piece} {s t : State} (hst : Apart j n 0 m s t)
    (hended : Ended j s t) (hbound : j.rest.length ≤ bound'.length) :
    LeadsTo j n (itemsUpTo bound s) (itemsUpTo bound' t) := by
  rw [itemsUpTo_stop hended.short]
  exact ⟨[], bound', t, rfl, rfl, hbound, hst.zero_of_ended hended⟩

/--
The longer stream gives the declarations of the shorter one and then those at the seam. By
induction on the tokens left up to the seam; a broken declaration is skipped by both readings up to
the same token or the seam.
-/
theorem itemsUpTo_beside : ∀ (m : Nat) {bound bound' : List Piece} {s t : State},
    m ≤ bound.length → m + j.rest.length ≤ bound'.length → Apart j n 0 m s t →
      LeadsTo j n (itemsUpTo bound s) (itemsUpTo bound' t) := by
  intro m
  induction m with
  | zero =>
    intro bound bound' s t _ hbound' hst
    exact leadsTo_of_ended hst hst.ended_of_zero (Nat.le_of_add_left_le hbound')
  | succ m ih =>
    intro bound bound' s t hbound hbound' hst
    rcases hst.cases with ⟨hstep, -⟩ | hended
    · obtain ⟨p, bound, rfl⟩ := List.exists_cons_of_length_pos (Nat.zero_lt_of_lt hbound)
      obtain ⟨p', bound', rfl⟩ : ∃ p' ps, bound' = p' :: ps :=
        List.exists_cons_of_length_pos (by omega)
      have hgo {s t : State} (h : Apart j n 0 m s t) :
          LeadsTo j n (itemsUpTo bound s) (itemsUpTo bound' t) :=
        ih (Nat.le_of_succ_le_succ hbound)
          (by simp only [List.length_cons] at hbound'; omega) h
      rw [itemsUpTo, itemsUpTo, if_neg hstep.notEnd, if_neg (hstep.alike.kind ▸ hstep.notEnd)]
      have hreply := item_beside hst hstep
      generalize item s = x at hreply ⊢
      generalize item t = y at hreply ⊢
      cases hreply with
      | ok hab hst => exact (hgo hst).cons hab
      | error hst => exact hgo (State.recoverItem_beside (hst.report _ _))
    · exact leadsTo_of_ended hst hended (Nat.le_of_add_left_le hbound')

end Reader

/-! ## Sources -/

open State

theorem ahead_facing {n : Nat} (ts : List Token) (t : Token) (us : List Token) :
    (facing n (ts ++ t :: us)).ahead = (ts ++ t :: us).map .token := by
  cases ts with
  | nil => rfl
  | cons u ts => rfl

theorem facing_fresh (n : Nat) (ts : List Token) :
    (facing n ts).nesting = n ∧ (facing n ts).errors = #[] := by
  cases ts with
  | nil => exact ⟨rfl, rfl⟩
  | cons t ts => exact ⟨rfl, rfl⟩

/-- The declarations that tokens are read as. -/
def readAll (tokens : List Token) : List Item × State :=
  Reader.itemsUpTo (facing 0 tokens).rest (facing 0 tokens)

theorem parse_of_tokens {source : String} {tokens : List Token}
    (h : Token.ofSource source = tokens.map .token) :
    (parse source).1.items = (readAll tokens).1 ∧
      (parse source).2.length = (readAll tokens).2.errors.size := by
  rw [parse, h, ofPieces, ofPieces_tokens]
  exact ⟨rfl, Array.length_toList⟩

/-- Reading tokens beside a longer stream that begins with tokens like them. -/
theorem leadsTo_of_alike {j : Seam} {ts us : List Token} {last : Token} {t : State}
    (hends : EndsOnce ((ts ++ [last]).map .token)) (halike : List.Forall₂ Token.Alike ts us)
    (hclosed : j.Sealed 0 ts) (hlong : t.ahead = us.map .token ++ j.tail)
    (hnesting : t.nesting = 0) (herrors : t.errors.size = j.extra) {bound : List Piece}
    (hbound : ts.length + j.rest.length ≤ bound.length) :
    Reader.LeadsTo j 0 (readAll (ts ++ [last])) (Reader.itemsUpTo bound t) := by
  obtain ⟨hlast, hbefore⟩ := hends.notEnd
  have hfresh := facing_fresh 0 (ts ++ [last])
  have hrest : ts.length ≤ (facing 0 (ts ++ [last])).rest.length := by
    rw [length_rest_facing]
    exact Nat.le_add_right _ _
  refine Reader.itemsUpTo_beside ts.length hrest hbound ⟨ts, us, ?_, Nat.le_refl _⟩
  refine ⟨⟨last, ahead_facing ts last [], hlast⟩, hlong, halike, hbefore, hclosed,
    ⟨hfresh.1, hnesting⟩, ?_⟩
  rw [hfresh.2, herrors]
  exact (Nat.zero_add _).symm

/-- Up to the seam: whatever is wrong before it, the reader comes to `u` with nothing open. -/
theorem readAll_append {ts : List Token} {last u : Token} (us : List Token)
    (hends : EndsOnce ((ts ++ [last]).map .token)) (hnested : WellNested 0 ts)
    (hlast : ∀ t, ts.getLast? = some t → t.kind ≠ .keySealed ∧ t.kind ≠ .keyAbstract)
    (hstarts : u.kind.startsItem = true) :
    ∃ items room t, readAll (ts ++ u :: us) =
        (items ++ (Reader.itemsUpTo room t).1, (Reader.itemsUpTo room t).2) ∧
      items.map Item.unplaced = (readAll (ts ++ [last])).1.map Item.unplaced ∧
      us.length ≤ room.length ∧ t.ahead = (u :: us).map .token ∧ t.nesting = 0 ∧
      t.errors.size = (readAll (ts ++ [last])).2.errors.size := by
  let j : Seam := ⟨u, us.map .token, 0, .inr hstarts⟩
  have hclosed : j.Sealed 0 ts :=
    .inr ⟨⟨0, Nat.le_refl 0, hnested⟩, fun t ht => Reader.modifier?_eq_none (hlast t ht)⟩
  have hfresh := facing_fresh 0 (ts ++ u :: us)
  have hbound : ts.length + j.rest.length ≤ (facing 0 (ts ++ u :: us)).rest.length := by
    rw [length_rest_facing]
    exact Nat.le_of_eq (congrArg (ts.length + ·) (List.length_map _))
  obtain ⟨items, room, t, hread, hitems, hroom, hseam⟩ :=
    leadsTo_of_alike hends (List.forall₂_same.2 fun _ _ => ⟨rfl, rfl⟩) hclosed
      ((ahead_facing ts u us).trans List.map_append) hfresh.1 (congrArg Array.size hfresh.2) hbound
  rw [List.length_map] at hroom
  obtain ⟨hahead, hnesting, herrors⟩ := hseam.at_seam
  exact ⟨items, room, t, hread, hitems, hroom, hahead, hnesting, herrors⟩

/-- From the seam on: what was found before is only there to be counted. -/
theorem itemsUpTo_of_alike {us vs : List Token} (hends : EndsOnce (us.map .token))
    (halike : List.Forall₂ Token.Alike us vs) {t : State} (hahead : t.ahead = vs.map .token)
    (hnesting : t.nesting = 0) {bound : List Piece} (hbound : us.length ≤ bound.length + 1) :
    (Reader.itemsUpTo bound t).1.map Item.unplaced = (readAll us).1.map Item.unplaced ∧
      (Reader.itemsUpTo bound t).2.errors.size =
        (readAll us).2.errors.size + t.errors.size := by
  obtain ⟨ts, line, col, rfl⟩ := hends.tokens
  obtain ⟨vs, v, rfl, hvs, hv⟩ := Token.exists_alike_concat halike
  have hend : v.kind = .eof := hv.kind.symm
  let j : Seam := ⟨v, [], t.errors.size, .inl hend⟩
  have hlong : t.ahead = vs.map .token ++ j.tail := hahead.trans List.map_append
  have hbound : ts.length + j.rest.length ≤ bound.length := by
    rw [List.length_append, List.length_singleton] at hbound
    exact Nat.le_of_succ_le_succ hbound
  obtain ⟨items, room, t', hread, hitems, -, hseam⟩ :=
    leadsTo_of_alike hends hvs (.inl hend) hlong hnesting rfl hbound
  obtain ⟨hahead', -, herrors⟩ := hseam.at_seam
  have hstop : t'.current.kind = .eof := by
    rw [Piece.token.inj (List.cons.inj hahead').1]
    exact hend
  rw [hread, Reader.itemsUpTo_stop hstop, List.append_nil]
  exact ⟨hitems, herrors⟩

/--
The declarations of two sources with a line break between them are those of the first one and, up to
spans, those of the second one, and so are the errors, if the braces of the first source are well
nested, no modifier stands at its end and the second one begins with a declaration.
-/
theorem parse_append {s₁ s₂ : String} {ts us : List Token} {u : Token} {line col : UInt32}
    (h₁ : Token.ofSource s₁ = (ts ++ [Token.endAt line col]).map .token)
    (hnested : WellNested 0 ts)
    (hlast : ∀ t, ts.getLast? = some t → t.kind ≠ .keySealed ∧ t.kind ≠ .keyAbstract)
    (h₂ : Token.ofSource s₂ = (u :: us).map .token) (hstarts : u.kind.startsItem = true)
    (hfirst : u.lexeme.toList <+: s₂.toList) :
    (parse (s₁ ++ "\n" ++ s₂)).1.items.map Item.unplaced =
        ((parse s₁).1.items ++ (parse s₂).1.items).map Item.unplaced ∧
      (parse (s₁ ++ "\n" ++ s₂)).2.length = (parse s₁).2.length + (parse s₂).2.length := by
  obtain ⟨vs, hjoined, halike⟩ :=
    Token.ofSource_append h₁ h₂ (Token.Kind.isWord_of_startsItem hstarts) hfirst
  obtain ⟨hitems₁, herrors₁⟩ := parse_of_tokens h₁
  obtain ⟨hitems₂, herrors₂⟩ := parse_of_tokens h₂
  obtain ⟨hitems, herrors⟩ := parse_of_tokens hjoined
  have hends₁ := Token.endsOnce_ofSource s₁
  have hends₂ := Token.endsOnce_ofSource s₂
  rw [h₁] at hends₁
  rw [h₂] at hends₂
  cases halike with
  | @cons _ v _ vs huv hrest =>
    obtain ⟨items, room, t, hread, hbefore, hroom, hahead, hnesting, hfound⟩ :=
      readAll_append vs hends₁ hnested hlast (huv.kind ▸ hstarts)
    have hbound : (u :: us).length ≤ room.length + 1 :=
      Nat.succ_le_succ (hrest.length_eq.trans_le hroom)
    obtain ⟨hafter, hcount⟩ := itemsUpTo_of_alike hends₂ (.cons huv hrest) hahead hnesting hbound
    rw [hitems, herrors, hitems₁, herrors₁, hitems₂, herrors₂, hread, List.map_append,
      List.map_append, hbefore, hafter]
    refine ⟨rfl, ?_⟩
    rw [hcount, hfound, Nat.add_comm]

/-! ### The word `type` between braces, in a declaration that is broken there -/

def brokenConst : String := "const A = \x7b type \x7d;"

def brokenConstTokens : List Token :=
  [⟨.keyConst, "const", ⟨1, 1, 5⟩⟩, ⟨.identifier, "A", ⟨1, 7, 1⟩⟩, ⟨.equal, "=", ⟨1, 9, 1⟩⟩,
    ⟨.leftBrace, "\x7b", ⟨1, 11, 1⟩⟩, ⟨.keyType, "type", ⟨1, 13, 4⟩⟩,
    ⟨.rightBrace, "\x7d", ⟨1, 18, 1⟩⟩, ⟨.semicolon, ";", ⟨1, 19, 1⟩⟩]

def emptyType : String := "type B \x7b\x7d"

def emptyTypeTokens : List Token :=
  [⟨.identifier, "B", ⟨1, 6, 1⟩⟩, ⟨.leftBrace, "\x7b", ⟨1, 8, 1⟩⟩,
    ⟨.rightBrace, "\x7d", ⟨1, 9, 1⟩⟩, .endAt 1 10]

theorem parse_append_brokenConst :
    WellNested 0 brokenConstTokens ∧ (parse brokenConst).1.items = [] ∧
      (parse brokenConst).2.length = 1 ∧
      (parse (brokenConst ++ "\n" ++ emptyType)).1.items.map Item.unplaced =
        [.type ⟨.empty, ⟨"B", nowhere⟩, none, [], nowhere⟩] ∧
      (parse (brokenConst ++ "\n" ++ emptyType)).2.length = 1 := by
  have h₁ : Token.ofSource brokenConst =
      (brokenConstTokens ++ [Token.endAt 1 20]).map .token := by
    decide +kernel
  have h₂ : Token.ofSource emptyType =
      (⟨.keyType, "type", ⟨1, 1, 4⟩⟩ :: emptyTypeTokens).map .token := by
    decide +kernel
  have hnested : WellNested 0 brokenConstTokens := by
    simp [WellNested, brokenConstTokens, Token.Kind.braces]
  have hlast : ∀ t, brokenConstTokens.getLast? = some t →
      t.kind ≠ .keySealed ∧ t.kind ≠ .keyAbstract := by
    rintro t ⟨⟩
    decide
  have hread₁ : (parse brokenConst).1.items = [] ∧ (parse brokenConst).2.length = 1 := by
    decide +kernel
  have hread₂ : (parse emptyType).1.items.map Item.unplaced =
      [.type ⟨.empty, ⟨"B", nowhere⟩, none, [], nowhere⟩] ∧ (parse emptyType).2.length = 0 := by
    decide +kernel
  obtain ⟨hitems, herrors⟩ := parse_append h₁ hnested hlast h₂ rfl (by decide +kernel)
  rw [hread₁.1, List.nil_append, hread₂.1] at hitems
  rw [hread₁.2, hread₂.2] at herrors
  exact ⟨hnested, hread₁.1, hread₁.2, hitems, herrors⟩

end Script
end Linkage
