import Linkage.Proofs.Script.Stream
import Linkage.Proofs.Token.Order

/-!
# Linkage.Proofs.Script.ErrorOrder

The order in which a reading reports errors.

The reader looks one token ahead: moving past a token it reports the lexical errors up to the next
one. What is wrong with a token that was passed is reported after them, so lexical errors may come
too early. Everything else is in the order of the source.

* `InOrder` — in the order of the source, or a lexical error before an error that came late.
* `State.Ordered` — the errors so far are in order and start no later than the current token.
* `State.Passes` — reading on goes forward and reports lexical errors only.
* `Reply.Follows`, `Reader.Leads`, `Reader.Ordered` — what a reader leads to, and the error it may
  end with.
* `parse_in_order` — the errors of every source are in order.
-/

namespace Linkage

namespace ParseError

def Cause.isLexical : Cause → Bool
  | .lexical _ => true
  | _ => false

/-- Whether the error is found only after the reader has moved past the token that it is about. -/
def Cause.isLate : Cause → Bool
  | .expectedDeclaration _ => true
  | .duplicateModifier _ => true
  | .invalidEscape _ => true
  | .tooManyLevels => true
  | _ => false

/-- One error may be reported before the other. -/
def InOrder (d e : ParseError) : Prop :=
  d.span.startsBefore e.span ∨ d.cause.isLexical ∧ e.cause.isLate

end ParseError

namespace Script

open ParseError

/-! ## States -/

namespace State

/-- The lexical errors before the first token are passed, and nothing else. -/
theorem exists_seek {pieces : List Piece} : EndsOnce pieces → ∀ s : State,
    ∃ found : List LexError, pieces = found.map .error ++ (s.seek pieces).ahead ∧
      EndsOnce (s.seek pieces).ahead ∧
      (s.seek pieces).errors.toList = s.errors.toList ++ found.map .ofLexError := by
  induction pieces with
  | nil => exact fun h => absurd rfl h.ne_nil
  | cons p pieces ih =>
    intro h s
    cases p with
    | token t => exact ⟨[], rfl, h, (List.append_nil _).symm⟩
    | error e =>
      rcases h.cases with ⟨-, line, col, heq⟩ | ⟨hrest, -⟩
      · cases heq
      · obtain ⟨found, hpieces, hends, herrors⟩ := ih hrest (s.report (.ofLexError e))
        rw [report, Array.toList_push, List.append_assoc, List.singleton_append] at herrors
        exact ⟨e :: found, congrArg _ hpieces, hends, herrors⟩

structure Ordered (s : State) : Prop where
  ends : EndsOnce s.ahead
  ahead : s.ahead.Pairwise fun p q => p.span.startsBefore q.span
  errors : s.errors.toList.Pairwise InOrder
  behind : ∀ e ∈ s.errors.toList, e.span.startsBefore s.current.span

theorem seek_ordered {s : State} {pieces : List Piece} (hends : EndsOnce pieces)
    (hpieces : pieces.Pairwise fun p q => p.span.startsBefore q.span)
    (herrors : s.errors.toList.Pairwise InOrder)
    (hbehind : ∀ e ∈ s.errors.toList, ∀ p ∈ pieces, e.span.startsBefore p.span) :
    (s.seek pieces).Ordered := by
  obtain ⟨found, heq, hahead, hfound⟩ := exists_seek hends s
  generalize s.seek pieces = t at heq hahead hfound ⊢
  subst heq
  obtain ⟨hbefore, hafter, hacross⟩ := List.pairwise_append.1 hpieces
  have hcurrent : .token t.current ∈ t.ahead := List.mem_cons_self
  refine ⟨hahead, hafter, ?_, fun e he => ?_⟩
  · rw [hfound, List.pairwise_append]
    refine ⟨herrors, ?_, fun d hd e he => .inl ?_⟩
    · rw [List.pairwise_map] at hbefore ⊢
      exact hbefore.imp .inl
    · obtain ⟨l, hl, rfl⟩ := List.mem_map.1 he
      exact hbehind d hd (.error l) (List.mem_append_left _ (List.mem_map_of_mem hl))
  · rw [hfound, List.mem_append] at he
    rcases he with he | he
    · exact hbehind e he (.token _) (List.mem_append_right _ hcurrent)
    · obtain ⟨l, hl, rfl⟩ := List.mem_map.1 he
      exact hacross (.error l) (List.mem_map_of_mem hl) _ hcurrent

structure Passes (s t : State) : Prop where
  ordered : t.Ordered
  forward : s.current.span.startsBefore t.current.span
  found : ∃ found, t.errors.toList = s.errors.toList ++ found ∧ ∀ e ∈ found, e.cause.isLexical

theorem Ordered.passes {s : State} (h : s.Ordered) : s.Passes s :=
  ⟨h, Span.startsBefore_refl _, [], (List.append_nil _).symm,
    fun _ he => absurd he List.not_mem_nil⟩

theorem Passes.trans {s t u : State} (hst : s.Passes t) (htu : t.Passes u) : s.Passes u := by
  obtain ⟨found, ht, hfound⟩ := hst.found
  obtain ⟨more, hu, hmore⟩ := htu.found
  refine ⟨htu.ordered, Span.startsBefore_trans hst.forward htu.forward, found ++ more, ?_, ?_⟩
  · rw [hu, ht, List.append_assoc]
  · exact List.forall_mem_append.2 ⟨hfound, hmore⟩

theorem bump_passes {s : State} (h : s.Ordered) : s.Passes s.bump := by
  rcases h.ends.cases with ⟨hrest, -⟩ | ⟨hends, -⟩
  · have hstay : s.bump = s := by
      rw [bump, hrest, seek, ← hrest]
    rw [hstay]
    exact h.passes
  · obtain ⟨hcurrent, hpieces⟩ := List.pairwise_cons.1 h.ahead
    obtain ⟨found, heq, -, hfound⟩ := exists_seek hends s
    refine ⟨seek_ordered hends hpieces h.errors fun e he p hp => ?_, ?_, _, hfound, ?_⟩
    · exact Span.startsBefore_trans (h.behind e he) (hcurrent p hp)
    · have hnext : .token s.bump.current ∈ s.rest := by
        rw [heq]
        exact List.mem_append_right _ List.mem_cons_self
      exact hcurrent _ hnext
    · intro e he
      obtain ⟨l, -, rfl⟩ := List.mem_map.1 he
      rfl

/-- This span is one of those that the reader has come across from `s` to `t`. -/
def Saw (s t : State) (span : Span) : Prop := Span.Within s.current.span t.current.span span

theorem Saw.later {s t u : State} {span : Span} (h : s.Saw t span) (htu : t.Passes u) :
    s.Saw u span :=
  h.widen (Span.startsBefore_refl _) htu.forward

theorem Saw.earlier {b s t : State} {span : Span} (hbs : b.Passes s) (h : s.Saw t span) :
    b.Saw t span :=
  h.widen hbs.forward (Span.startsBefore_refl _)

/-- An error with which a reader may stop that has come from `s` to `t`. -/
structure Reportable (s t : State) (e : ParseError) : Prop where
  saw : s.Saw t e.span
  late : e.span = t.current.span ∨ e.cause.isLate

theorem Ordered.report {s t : State} {e : ParseError} (hs : s.Ordered) (hst : s.Passes t)
    (he : s.Reportable t e) : (t.report e).Ordered := by
  obtain ⟨found, hfound, hlexical⟩ := hst.found
  refine ⟨hst.ordered.ends, hst.ordered.ahead, ?_, fun d hd => ?_⟩
  · rw [State.report, Array.toList_push, List.pairwise_append]
    refine ⟨hst.ordered.errors, List.pairwise_singleton _ _, fun d hd e' he' => ?_⟩
    obtain rfl := List.mem_singleton.1 he'
    rcases he.late with hcurrent | hlate
    · exact .inl (hcurrent ▸ hst.ordered.behind d hd)
    · rw [hfound, List.mem_append] at hd
      rcases hd with hd | hd
      · exact .inl (Span.startsBefore_trans (hs.behind d hd) he.saw.low)
      · exact .inr ⟨hlexical d hd, hlate⟩
  · rw [State.report, Array.toList_push, List.mem_append, List.mem_singleton] at hd
    rcases hd with hd | rfl
    · exact hst.ordered.behind d hd
    · exact he.saw.high

end State

/-! ## Readers -/

/-- From `s` on, with a result that satisfies `P` or with an error that may be reported. -/
inductive Reply.Follows {α : Type} (s : State) (P : α → State → Prop) : Reply α → Prop where
  | ok {a : α} {t : State} : s.Passes t → P a t → Follows s P (.ok a t)
  | error {e : ParseError} {t : State} : s.Passes t → s.Reportable t e → Follows s P (.error e t)

namespace Reader

variable {α β : Type}

/-- Reading in `s` goes on a reading that began in `b`. -/
def Leads (r : Reader α) (b s : State) (P : α → State → Prop) : Prop := (r s).Follows b P

/-- What it gives has a span that it has come across. -/
def Spans (r : Reader α) (span : α → Span) : Prop :=
  ∀ s, s.Ordered → r.Leads s s fun a t => s.Saw t (span a)

section

variable {r : Reader α} {b s : State}

theorem leads_pure {P : α → State → Prop} {a : α} (hbs : b.Passes s) (ha : P a s) :
    Leads (pure a) b s P := .ok hbs ha

theorem Leads.bind {f : α → Reader β} {P : α → State → Prop} {Q : β → State → Prop}
    (hr : r.Leads b s P) (hf : ∀ a t, b.Passes t → P a t → (f a).Leads b t Q) :
    (r >>= f).Leads b s Q := by
  change (Reader.bind r f s).Follows b Q
  unfold Leads at hr
  unfold Reader.bind
  generalize r s = reply at hr ⊢
  cases hr with
  | ok hbt ha => exact hf _ _ hbt ha
  | error hbt he => exact .error hbt he

theorem Spans.leads {span : α → Span} (hr : Spans r span) (hbs : b.Passes s) :
    r.Leads b s fun a t => s.Passes t ∧ b.Saw t (span a) := by
  have hreply := hr s hbs.ordered
  unfold Leads at hreply ⊢
  generalize r s = reply at hreply ⊢
  cases hreply with
  | ok hst ha => exact .ok (hbs.trans hst) ⟨hst, ha.earlier hbs⟩
  | error hst he => exact .error (hbs.trans hst) ⟨he.saw.earlier hbs, he.late⟩

/-- At the end of what is read there is nothing to come back to. -/
theorem Spans.saw {span : α → Span} (hr : Spans r span) (hbs : b.Passes s) :
    r.Leads b s fun a t => b.Saw t (span a) := by
  have hreply := hr.leads hbs
  unfold Leads at hreply ⊢
  generalize r s = reply at hreply ⊢
  cases hreply with
  | ok hst ha => exact .ok hst ha.2
  | error hst he => exact .error hst he

end

theorem saw_current (s : State) : s.Saw s s.current.span :=
  ⟨Span.startsBefore_refl _, Span.startsBefore_refl _⟩

theorem reportable_current (s : State) (cause : Cause) : s.Reportable s ⟨cause, s.current.span⟩ :=
  ⟨saw_current s, .inl rfl⟩

theorem spans_current : Spans current Token.span := fun s hs => .ok hs.passes (saw_current s)

theorem spans_next : Spans next Token.span := fun s hs =>
  .ok (State.bump_passes hs) ((saw_current s).later (State.bump_passes hs))

theorem spans_refuse (cause : Token → Cause) (span : α → Span) : Spans (refuse cause) span :=
  fun s hs => .error hs.passes (reportable_current s _)

theorem spans_expect (kind : Token.Kind) : Spans (expect kind) Token.span := by
  intro s hs
  unfold Leads expect
  split
  · exact spans_next s hs
  · exact .error hs.passes (reportable_current s _)

theorem spans_ident : Spans ident Ident.span := by
  intro s hs
  unfold Leads ident
  split
  · exact .ok (State.bump_passes hs) ((saw_current s).later (State.bump_passes hs))
  · exact .error hs.passes (reportable_current s _)

theorem leads_skip (kind : Token.Kind) {b s : State} (hbs : b.Passes s) :
    (skip kind).Leads b s fun _ t => s.Passes t := by
  have hbump := State.bump_passes hbs.ordered
  unfold Leads skip
  split
  · exact .ok (hbs.trans hbump) hbump
  · exact .ok hbs hbs.ordered.passes

theorem spans_path : Spans path Path.span := by
  intro s hs
  refine (spans_ident.leads hs.passes).bind fun first t hst ⟨_, hfirst⟩ => ?_
  refine (leads_skip .dot hst).bind fun dot u hsu htu => ?_
  cases dot with
  | true =>
    refine (spans_ident.leads hsu).bind fun name v hsv ⟨huv, hname⟩ => ?_
    exact leads_pure hsv (((hfirst.later htu).later huv).merge hname)
  | false => exact leads_pure hsu (hfirst.later htu)

/-! ## Expressions -/

def operandSpan (o : Operand) : Span := o.expr.span

theorem spans_leaf (v : Value) : Spans (leaf v) operandSpan := fun _ hs =>
  (spans_next.leads hs.passes).bind fun _ _ hst ht => leads_pure hst ht.2

section

variable {b s : State}

/-- An expression is where its parts are, and so is an error about its height. -/
theorem leads_negate {minus : Span} {o : Operand} (hbs : b.Passes s) (hminus : b.Saw s minus)
    (ho : b.Saw s (operandSpan o)) :
    (ofExcept (o.negate minus)).Leads b s fun p t => b.Saw t (operandSpan p) := by
  unfold Operand.negate
  dsimp only
  split
  · exact .error hbs ⟨hminus.merge ho, .inr rfl⟩
  · exact .ok hbs (hminus.merge ho)

theorem leads_binary {op : Operator} {l r : Operand} (hbs : b.Passes s)
    (hl : b.Saw s (operandSpan l)) (hr : b.Saw s (operandSpan r)) :
    (ofExcept (l.binary op r)).Leads b s fun p t => b.Saw t (operandSpan p) := by
  unfold Operand.binary
  dsimp only
  split
  · exact .error hbs ⟨hl.merge hr, .inr rfl⟩
  · exact .ok hbs (hl.merge hr)

/-- How deep a state is nested has no part in any of this. -/
theorem passes_nested {t : State} {m n : Nat} (h : State.Passes { s with nesting := m } t) :
    s.Passes { t with nesting := n } :=
  ⟨⟨h.ordered.ends, h.ordered.ahead, h.ordered.errors, h.ordered.behind⟩, h.forward, h.found⟩

theorem leads_nested {r : Reader Operand} {opening : Span} (hr : Spans r operandSpan)
    (hbs : b.Passes s) (hopening : b.Saw s opening) :
    (nested opening r).Leads b s fun o t => s.Passes t ∧ b.Saw t (operandSpan o) := by
  unfold Leads nested
  split
  · exact .error hbs ⟨hopening, .inr rfl⟩
  · have hinside : b.Passes { s with nesting := s.nesting + 1 } := passes_nested hbs
    have hreply := hr.leads hinside
    unfold Leads at hreply
    generalize r { s with nesting := s.nesting + 1 } = reply at hreply ⊢
    cases hreply with
    | ok hst ho => exact .ok (passes_nested hst) ⟨passes_nested ho.1, ho.2⟩
    | error hst he => exact .error (passes_nested hst) ⟨he.saw, he.late⟩

end

theorem spans_atom : Spans atom operandSpan := by
  intro s hs
  unfold atom
  refine (spans_current.leads hs.passes).bind fun token t hst _ => ?_
  split
  · exact (spans_leaf _).saw hst
  · exact (spans_leaf _).saw hst
  · exact (spans_leaf _).saw hst
  · exact (spans_leaf _).saw hst
  · refine (spans_next.leads hst).bind fun token u hsu ⟨_, htoken⟩ => ?_
    split
    · exact leads_pure hsu htoken
    · exact .error hsu ⟨htoken, .inr rfl⟩
  · exact (spans_path.leads hst).bind fun p u hsu hp => leads_pure hsu hp.2
  · exact (spans_refuse _ _).saw hst

/-- By induction on the bound. -/
theorem leads_chain {operator? : Token.Kind → Option Operator} {operand : Reader Operand}
    (ho : Spans operand operandSpan) {b : State} (bound : List Piece) :
    ∀ {s : State} {lhs : Operand}, b.Passes s → b.Saw s (operandSpan lhs) →
      (chain operator? operand bound lhs).Leads b s fun o t => b.Saw t (operandSpan o) := by
  induction bound with
  | nil => exact fun hbs hl => leads_pure hbs hl
  | cons _ bound ih =>
    intro s lhs hbs hl
    unfold chain
    refine (spans_current.leads hbs).bind fun token t hbt ⟨hst, _⟩ => ?_
    have hlt := hl.later hst
    split
    · exact leads_pure hbt hlt
    · refine (spans_next.leads hbt).bind fun _ u hbu ⟨htu, _⟩ => ?_
      refine (ho.leads hbu).bind fun rhs v hbv ⟨huv, hr⟩ => ?_
      refine (leads_binary hbv ((hlt.later htu).later huv) hr).bind fun both w hbw hboth => ?_
      exact ih hbw hboth

theorem spans_joined {operator? : Token.Kind → Option Operator} {operand : Reader Operand}
    (ho : Spans operand operandSpan) : Spans (joined operator? operand) operandSpan := fun _ hs =>
  (ho.leads hs.passes).bind fun _ t hst hl => leads_chain ho t.rest hst hl.2

theorem spans_sum {operand : Reader Operand} (ho : Spans operand operandSpan) :
    Spans (sum operand) operandSpan :=
  spans_joined (spans_joined ho)

/-- By induction on the bound. -/
theorem spans_unary (bound : Nat) : Spans (unary bound) operandSpan := by
  induction bound with
  | zero =>
    intro s hs
    exact (spans_current.leads hs.passes).bind fun _ t hst ht => .error hst ⟨ht.2, .inr rfl⟩
  | succ bound ih =>
    intro s hs
    unfold unary
    refine (spans_current.leads hs.passes).bind fun token t hst _ => ?_
    split
    · refine (spans_next.leads hst).bind fun minus u hsu ⟨_, hminus⟩ => ?_
      refine (leads_nested ih hsu hminus).bind fun o v hsv ⟨huv, ho⟩ => ?_
      exact leads_negate hsv (hminus.later huv) ho
    · refine (spans_next.leads hst).bind fun paren u hsu ⟨_, hparen⟩ => ?_
      refine (leads_nested (spans_sum ih) hsu hparen).bind fun o v hsv ⟨_, ho⟩ => ?_
      refine ((spans_expect _).leads hsv).bind fun _ w hsw ⟨hvw, _⟩ => ?_
      exact leads_pure hsw (ho.later hvw)
    · exact spans_atom.saw hst

theorem spans_expression : Spans expression operandSpan := spans_sum (spans_unary _)

/-! ## Declarations -/

end Reader

/-- The errors are in order, also with the one that the reading ends with. -/
inductive Reply.Ordered {α : Type} : Reply α → Prop where
  | ok {a : α} {t : State} : t.Ordered → Ordered (.ok a t)
  | error {e : ParseError} {t : State} : (t.report e).Ordered → Ordered (.error e t)

namespace Reader

variable {α β : Type}

def Ordered (r : Reader α) : Prop := ∀ s, s.Ordered → (r s).Ordered

theorem Spans.ordered {r : Reader α} {span : α → Span} (hr : Spans r span) : r.Ordered := by
  intro s hs
  have hreply := hr s hs
  unfold Leads at hreply
  generalize r s = reply at hreply ⊢
  cases hreply with
  | ok hst _ => exact .ok hst.ordered
  | error hst he => exact .error (hs.report hst he)

theorem ordered_pure (a : α) : Ordered (pure a : Reader α) := fun _ hs => .ok hs

theorem Ordered.bind {r : Reader α} {f : α → Reader β} (hr : r.Ordered)
    (hf : ∀ a, (f a).Ordered) : (r >>= f).Ordered := by
  intro s hs
  change (Reader.bind r f s).Ordered
  have hreply := hr s hs
  unfold Reader.bind
  generalize r s = reply at hreply ⊢
  cases hreply with
  | ok ht => exact hf _ _ ht
  | error ht => exact .error ht

theorem Ordered.map {r : Reader α} (hr : r.Ordered) (f : α → β) : (f <$> r).Ordered :=
  hr.bind fun a => ordered_pure (f a)

theorem ordered_skip (kind : Token.Kind) : (skip kind).Ordered := by
  intro s hs
  unfold skip
  split
  · exact .ok (State.bump_passes hs).ordered
  · exact .ok hs

theorem ordered_field : field.Ordered := by
  refine spans_ident.ordered.bind fun name => ?_
  refine (spans_expect .colon).ordered.bind fun _ => ?_
  refine spans_path.ordered.bind fun type => ?_
  exact (spans_expect .semicolon).ordered.bind fun _ => ordered_pure _

theorem ordered_constDecl : constDecl.Ordered := by
  refine spans_next.ordered.bind fun first => ?_
  refine spans_ident.ordered.bind fun name => ?_
  refine (spans_expect .equal).ordered.bind fun _ => ?_
  refine spans_expression.ordered.bind fun value => ?_
  exact (spans_expect .semicolon).ordered.bind fun _ => ordered_pure _

end Reader

namespace State

theorem skipField_ordered (bound : List Piece) :
    ∀ {s : State}, s.Ordered → (skipField bound s).Ordered := by
  induction bound with
  | nil => exact fun hs => hs
  | cons _ bound ih =>
    intro s hs
    have hbump := (bump_passes hs).ordered
    unfold skipField
    split
    · exact hs
    · exact hs
    · exact hbump
    · exact ih hbump

theorem skipItem_ordered (bound : List Piece) :
    ∀ {depth : Nat} {s : State}, s.Ordered → (skipItem bound depth s).Ordered := by
  induction bound with
  | nil => exact fun hs => hs
  | cons _ bound ih =>
    intro depth s hs
    have hbump := (bump_passes hs).ordered
    unfold skipItem
    split
    · exact hs
    · exact ih hbump
    · exact ih hbump
    · split
      · exact hs
      · exact ih hbump

end State

namespace Reader

theorem fieldsUpTo_ordered (bound : List Piece) :
    ∀ {s : State}, s.Ordered → (fieldsUpTo bound s).2.Ordered := by
  induction bound with
  | nil => exact fun hs => hs
  | cons _ bound ih =>
    intro s hs
    unfold fieldsUpTo
    split
    · exact hs
    · have hfield := ordered_field s hs
      generalize field s = reply at hfield ⊢
      cases hfield with
      | ok ht => exact ih ht
      | error ht => exact ih (State.skipField_ordered _ ht)

/-- A repeated modifier is reported when it is passed already. -/
theorem modifiersUpTo_ordered (bound : List Piece) :
    ∀ {seen : Modifiers} {s : State}, s.Ordered → (modifiersUpTo bound seen s).2.Ordered := by
  induction bound with
  | nil => exact fun hs => hs
  | cons _ bound ih =>
    intro seen s hs
    have hbump := State.bump_passes hs
    unfold modifiersUpTo
    split
    · exact hs
    · refine ih ?_
      split
      · exact hs.report hbump ⟨(saw_current s).later hbump, .inr rfl⟩
      · exact hbump.ordered

theorem ordered_typeDecl : typeDecl.Ordered := by
  refine spans_current.ordered.bind fun first => ?_
  have hmodifiers : modifiers.Ordered := fun s hs => .ok (modifiersUpTo_ordered s.rest hs)
  refine hmodifiers.bind fun ms => ?_
  refine (spans_expect .keyType).ordered.bind fun _ => ?_
  refine spans_ident.ordered.bind fun name => ?_
  have hfields : fields.Ordered := fun s hs => .ok (fieldsUpTo_ordered s.rest hs)
  have hbody (base : Option Path) : Ordered (do
      let _ ← expect .leftBrace
      let fs ← fields
      let last ← expect .rightBrace
      return (⟨ms, name, base, fs, first.span.merge last.span⟩ : TypeDecl)) := by
    refine (spans_expect .leftBrace).ordered.bind fun _ => hfields.bind fun fs => ?_
    exact (spans_expect .rightBrace).ordered.bind fun _ => ordered_pure _
  refine (ordered_skip .keyExtends).bind fun extended => ?_
  split
  · exact (spans_path.ordered.map some).bind hbody
  · exact (ordered_pure none).bind hbody

theorem ordered_item : item.Ordered := by
  refine spans_current.ordered.bind fun token => ?_
  split
  · exact ordered_constDecl.map _
  · exact ordered_typeDecl.map _
  · exact ordered_typeDecl.map _
  · exact ordered_typeDecl.map _
  · intro s hs
    have hbump := State.bump_passes hs
    exact .error (hs.report hbump ⟨(saw_current s).later hbump, .inr rfl⟩)

theorem itemsUpTo_ordered (bound : List Piece) :
    ∀ {s : State}, s.Ordered → (itemsUpTo bound s).2.Ordered := by
  induction bound with
  | nil => exact fun hs => hs
  | cons _ bound ih =>
    intro s hs
    unfold itemsUpTo
    split
    · exact hs
    · have hitem := ordered_item s hs
      generalize item s = reply at hitem ⊢
      cases hitem with
      | ok ht => exact ih ht
      | error ht => exact ih (State.skipItem_ordered _ ht)

end Reader

/-! ## Sources -/

theorem ofPieces_in_order {pieces : List Piece} (hends : EndsOnce pieces)
    (hpieces : pieces.Pairwise fun p q => p.span.startsBefore q.span) :
    (ofPieces pieces).2.Pairwise InOrder := by
  have hstart : (State.ofPieces pieces).Ordered :=
    State.seek_ordered hends hpieces .nil fun _ he => absurd he List.not_mem_nil
  exact (Reader.itemsUpTo_ordered _ hstart).errors

/--
The errors of a source are in its order, but for lexical errors that were found while the reader
moved past a token that is wrong itself.
-/
theorem parse_in_order {source : String} (h : (Text.bytes source).length < 4294967295) :
    (parse source).2.Pairwise InOrder :=
  ofPieces_in_order (Token.endsOnce_ofSource source) (Token.pieces_in_order h)

/-! ### A stray word before a stray character, and a declaration that ends too early -/

def stray : String := "a @\nconst A = # ;"

def strayErrors : List ParseError :=
  [⟨.lexical ⟨.unexpectedChar '@', ⟨1, 3, 1⟩⟩, ⟨1, 3, 1⟩⟩,
    ⟨.expectedDeclaration ⟨.identifier, "a", ⟨1, 1, 1⟩⟩, ⟨1, 1, 1⟩⟩,
    ⟨.lexical ⟨.unexpectedChar '#', ⟨2, 11, 1⟩⟩, ⟨2, 11, 1⟩⟩,
    ⟨.expectedExpression ⟨.semicolon, ";", ⟨2, 13, 1⟩⟩, ⟨2, 13, 1⟩⟩]

theorem parse_in_order_stray :
    (parse stray).2 = strayErrors ∧ strayErrors.Pairwise InOrder := by
  have hparse : (parse stray).2 = strayErrors := by
    decide +kernel
  exact ⟨hparse, hparse ▸ parse_in_order (by decide +kernel)⟩

/-- The word is passed, and with it the character after it, before the word is reported. -/
theorem lexical_before_late :
    ¬ (parse "a @").2.Pairwise fun d e => d.span.startsBefore e.span := by
  decide +kernel

end Script
end Linkage
