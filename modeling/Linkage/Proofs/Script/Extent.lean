import Linkage.Proofs.Script.Stream
import Linkage.Proofs.Token.Extent

/-!
# Linkage.Proofs.Script.Extent

Where the parts of a syntax tree are in the source.

* `Laid` — a tree over the source: each name and literal is where its token is, parts that are
  merged come one after the other, and merging them stays within words.
* `State.Stands` — what is ahead is the source from some character on, and errors point at it.
* `Reader.Lays` — what a reader gives lies between where it began and where it stopped.
* `parse_laid` — every reading gives a tree that is laid over the source.
* `Script.spans` — the spans of a tree. In a tree that is laid they lie in the source.
-/

namespace Linkage
namespace Script

/-! ## Trees over a source -/

inductive Path.Laid (source : String) : Path → Nat → Nat → Prop where
  | bare {x : Ident} {i j : Nat} : x.span.Lies source i j → Laid source ⟨none, x⟩ i j
  | qualified {q x : Ident} {i j k l : Nat} :
      q.span.Lies source i j → j ≤ k → x.span.Lies source k l →
      Span.Joined q.span x.span (Path.span ⟨some q, x⟩) → Laid source ⟨some q, x⟩ i l

inductive Expr.Laid (source : String) : Expr → Nat → Nat → Prop where
  | literal {v : Value} {t : Token} {i j : Nat} :
      t.At source i j → Laid source (.literal v t.span) i j
  | path {p : Path} {i j : Nat} : p.Laid source i j → Laid source (.path p) i j
  | negate {minus : Token} {e : Expr} {span : Span} {i j k l : Nat} :
      minus.At source i j → j ≤ k → Laid source e k l → Span.Joined minus.span e.span span →
      Laid source (.negate e span) i l
  | binary {op : Operator} {a b : Expr} {span : Span} {i j k l : Nat} :
      Laid source a i j → j ≤ k → Laid source b k l → Span.Joined a.span b.span span →
      Laid source (.binary op a b span) i l

inductive FieldDecl.Laid (source : String) : FieldDecl → Prop where
  | field {name : Ident} {type : Path} {last : Token} {span : Span} {i j k l m n : Nat} :
      name.span.Lies source i j → type.Laid source k l → j ≤ m → last.At source m n →
      Span.Joined name.span last.span span → Laid source ⟨name, type, span⟩

inductive TypeDecl.Laid (source : String) : TypeDecl → Prop where
  | type {modifiers : Modifiers} {name : Ident} {base : Option Path} {fields : List FieldDecl}
      {first last : Token} {span : Span} {i j k l m n : Nat} :
      first.At source i j → name.span.Lies source k l →
      (∀ p, base = some p → ∃ x y, p.Laid source x y) → (∀ f ∈ fields, f.Laid source) →
      j ≤ m → last.At source m n → Span.Joined first.span last.span span →
      Laid source ⟨modifiers, name, base, fields, span⟩

inductive ConstDecl.Laid (source : String) : ConstDecl → Prop where
  | const {name : Ident} {value : Expr} {first last : Token} {span : Span}
      {i j k l x y m n : Nat} :
      first.At source i j → name.span.Lies source k l → value.Laid source x y →
      j ≤ m → last.At source m n → Span.Joined first.span last.span span →
      Laid source ⟨name, value, span⟩

def Item.Laid (source : String) : Item → Prop
  | .type t => t.Laid source
  | .const c => c.Laid source

end Script

inductive Script.Laid (source : String) : Script → Prop where
  | script {items : List Script.Item} {first last : Token} {span : Span} {i j m n : Nat} :
      (∀ x ∈ items, x.Laid source) → first.At source i j → j ≤ m → last.At source m n →
      Span.Joined first.span last.span span → Laid source ⟨items, span⟩

namespace Script

variable {source : String} {b i j k l : Nat} {s t : State}

/-! ## States -/

namespace State

/-- Ahead are pieces of the source from this character on, and the errors so far point at it. -/
structure Stands (source : String) (k : Nat) (s : State) : Prop where
  queue : Token.Queue source k s.ahead
  errors : ∀ e ∈ s.errors.toList, e.span.PointsAt source

theorem pointsAt_report {e : ParseError} (hs : ∀ e ∈ s.errors.toList, e.span.PointsAt source)
    (he : e.span.PointsAt source) :
    ∀ d ∈ (s.report e).errors.toList, d.span.PointsAt source := by
  rw [report, Array.toList_push]
  exact List.forall_mem_append.2 ⟨hs, List.forall_mem_singleton.2 he⟩

theorem Stands.report {e : ParseError} (h : s.Stands source k) (he : e.span.PointsAt source) :
    (s.report e).Stands source k :=
  ⟨h.queue, pointsAt_report h.errors he⟩

theorem Stands.nest (h : s.Stands source k) (n : Nat) : { s with nesting := n }.Stands source k :=
  ⟨h.queue, h.errors⟩

theorem stands_seek {pieces : List Piece} (h : Token.Queue source k pieces) : ∀ {s : State},
    (∀ e ∈ s.errors.toList, e.span.PointsAt source) → (s.seek pieces).Stands source k := by
  induction h with
  | last hk hkind hat => exact fun hs => ⟨.last hk hkind hat, hs⟩
  | token hk hkind hat hrest _ => exact fun hs => ⟨.token hk hkind hat hrest, hs⟩
  | @error k j e pieces hk hpoints _ ih =>
    intro s hs
    have hrest := ih (pointsAt_report (e := .ofLexError e) hs hpoints)
    exact ⟨hrest.queue.earlier hk, hrest.errors⟩

/-- Moving on leaves the current token behind, but for the end, which has no length. -/
theorem Stands.bump (h : s.Stands source k) :
    ∃ i j, k ≤ i ∧ s.current.At source i j ∧ s.bump.Stands source j := by
  obtain ⟨current, rest, nesting, errors⟩ := s
  obtain ⟨hqueue, herrors⟩ := h
  cases hqueue with
  | last hk hkind hat => exact ⟨_, _, hk, hat, .last (Nat.le_refl _) hkind hat, herrors⟩
  | token hk hkind hat hrest => exact ⟨_, _, hk, hat, stands_seek hrest herrors⟩

theorem Stands.current (h : s.Stands source k) : s.current.span.PointsAt source := by
  obtain ⟨i, j, -, hat, -⟩ := h.bump
  exact hat.lies.pointsAt

theorem Stands.rest_eq_nil (h : s.Stands source k) :
    s.rest = [] ↔ s.current.kind = .eof := by
  obtain ⟨current, rest, nesting, errors⟩ := s
  obtain ⟨hqueue, -⟩ := h
  cases hqueue with
  | last _ hkind _ => exact iff_of_true rfl hkind
  | token _ hkind _ hrest => exact iff_of_false (fun hnil => by subst hnil; cases hrest) hkind

/-- Ahead is the source from this character or a later one on. -/
def Past (source : String) (k : Nat) (t : State) : Prop := ∃ l, k ≤ l ∧ t.Stands source l

theorem Past.mono (h : t.Past source k) (hjk : j ≤ k) : t.Past source j := by
  obtain ⟨l, hkl, ht⟩ := h
  exact ⟨l, Nat.le_trans hjk hkl, ht⟩

theorem Stands.skipField (bound : List Piece) : ∀ {s : State} {k : Nat}, s.Stands source k →
    (State.skipField bound s).Past source k := by
  induction bound with
  | nil => exact fun h => ⟨_, Nat.le_refl _, h⟩
  | cons _ bound ih =>
    intro s k h
    obtain ⟨i, j, hki, hat, hbump⟩ := h.bump
    have hkj := Nat.le_trans hki hat.lies.order
    unfold State.skipField
    split
    · exact ⟨k, Nat.le_refl _, h⟩
    · exact ⟨k, Nat.le_refl _, h⟩
    · exact ⟨j, hkj, hbump⟩
    · exact (ih hbump).mono hkj

theorem Stands.skipItem (bound : List Piece) : ∀ {depth : Nat} {s : State} {k : Nat},
    s.Stands source k → (State.skipItem bound depth s).Past source k := by
  induction bound with
  | nil => exact fun h => ⟨_, Nat.le_refl _, h⟩
  | cons _ bound ih =>
    intro depth s k h
    obtain ⟨i, j, hki, hat, hbump⟩ := h.bump
    have hkj := Nat.le_trans hki hat.lies.order
    have hskip (depth : Nat) : (State.skipItem bound depth s.bump).Past source k :=
      (ih hbump).mono hkj
    unfold State.skipItem
    split
    · exact ⟨k, Nat.le_refl _, h⟩
    · exact hskip _
    · exact hskip _
    · split
      · exact ⟨k, Nat.le_refl _, h⟩
      · exact hskip _

/-- From `k` up to where the state stands there lies something. -/
def Within (source : String) (k : Nat) (Q : Nat → Nat → Prop) (t : State) : Prop :=
  ∃ i j l, k ≤ i ∧ i ≤ j ∧ j ≤ l ∧ Q i j ∧ t.Stands source l

end State

/-! ## Readers -/

/--
A result that satisfies `P`, or an error that points at the source with a state to go on from, at
`b` or later.
-/
inductive Reply.Lands {α : Type} (source : String) (b : Nat) (P : α → State → Prop) :
    Reply α → Prop where
  | ok {a : α} {t : State} : P a t → Lands source b P (.ok a t)
  | error {e : ParseError} {t : State} {l : Nat} : b ≤ l → t.Stands source l →
      e.span.PointsAt source → Lands source b P (.error e t)

namespace Reader

variable {α β : Type}

/-- Reading in `s` gives a result that satisfies `P`, or an error not before `b`. -/
def Lands (source : String) (r : Reader α) (s : State) (b : Nat) (P : α → State → Prop) : Prop :=
  (r s).Lands source b P

/-- What the reader gives lies between where it begins and where it stops. -/
def Lays (source : String) (r : Reader α) (Q : α → Nat → Nat → Prop) : Prop :=
  ∀ k s, s.Stands source k → Lands source r s k fun a => State.Within source k (Q a)

theorem Lands.imp {r : Reader α} {c : Nat} {P Q : α → State → Prop} (h : Lands source r s b P)
    (hb : c ≤ b) (hPQ : ∀ a t, P a t → Q a t) : Lands source r s c Q := by
  unfold Lands at h ⊢
  generalize r s = reply at h ⊢
  cases h with
  | ok ha => exact .ok (hPQ _ _ ha)
  | error hl ht he => exact .error (Nat.le_trans hb hl) ht he

theorem Lands.bind {r : Reader α} {f : α → Reader β} {P : α → State → Prop}
    {Q : β → State → Prop} (hr : Lands source r s b P)
    (hf : ∀ a t, P a t → Lands source (f a) t b Q) : Lands source (r >>= f) s b Q := by
  change (Reader.bind r f s).Lands source b Q
  unfold Lands at hr
  unfold Reader.bind
  generalize r s = reply at hr ⊢
  cases hr with
  | ok ha => exact hf _ _ ha
  | error hl ht he => exact .error hl ht he

theorem Lays.bind {r : Reader α} {f : α → Reader β} {P : α → Nat → Nat → Prop}
    {Q : β → State → Prop} (hr : Lays source r P) (hs : s.Stands source k) (hb : b ≤ k)
    (hf : ∀ a t i j l, k ≤ i → i ≤ j → j ≤ l → P a i j → t.Stands source l →
      Lands source (f a) t b Q) : Lands source (r >>= f) s b Q :=
  ((hr k s hs).imp hb fun _ _ h => h).bind fun a t ⟨i, j, l, hki, hij, hjl, ha, ht⟩ =>
    hf a t i j l hki hij hjl ha ht

theorem lands_current {f : Token → Reader β} {P : β → State → Prop}
    (hf : ∀ token, token = s.current → Lands source (f token) s b P) :
    Lands source (current >>= f) s b P :=
  hf _ rfl

/-! ### Tokens and names -/

theorem lays_next : Lays source next (Token.At source) := by
  intro k s hs
  obtain ⟨i, j, hki, hat, hbump⟩ := hs.bump
  exact .ok ⟨i, j, j, hki, hat.lies.order, Nat.le_refl _, hat, hbump⟩

theorem lays_refuse (cause : Token → ParseError.Cause) (Q : α → Nat → Nat → Prop) :
    Lays source (refuse cause) Q :=
  fun _ _ hs => .error (Nat.le_refl _) hs hs.current

theorem lays_expect (kind : Token.Kind) : Lays source (expect kind) (Token.At source) := by
  intro k s hs
  unfold Lands expect
  split
  · exact lays_next k s hs
  · exact .error (Nat.le_refl _) hs hs.current

theorem lays_ident : Lays source ident fun x => x.span.Lies source := by
  intro k s hs
  unfold Lands ident
  split
  · obtain ⟨i, j, hki, hat, hbump⟩ := hs.bump
    exact .ok ⟨i, j, j, hki, hat.lies.order, Nat.le_refl _, hat.lies, hbump⟩
  · exact .error (Nat.le_refl _) hs hs.current

theorem lands_skip (kind : Token.Kind) (hs : s.Stands source k) :
    Lands source (skip kind) s b fun _ t => t.Past source k := by
  unfold Lands skip
  split
  · obtain ⟨i, j, hki, hat, hbump⟩ := hs.bump
    exact .ok ⟨j, Nat.le_trans hki hat.lies.order, hbump⟩
  · exact .ok ⟨k, Nat.le_refl _, hs⟩

section

variable (hsource : (Text.bytes source).length < 4294967295)
include hsource

theorem lays_path : Lays source path (Path.Laid source) := by
  intro k s hs
  refine lays_ident.bind hs (Nat.le_refl _) fun first t i j l hki hij hjl hfirst ht => ?_
  refine (lands_skip .dot ht).bind fun dot u ⟨m, hlm, hu⟩ => ?_
  cases dot with
  | true =>
    refine lays_ident.bind hu (by omega) fun name v i' j' n hmi hij' hjn hname hv => ?_
    have hlaid : Path.Laid source ⟨some first, name⟩ i j' :=
      .qualified hfirst (by omega) hname (hfirst.joined hsource (by omega) hname)
    exact .ok ⟨i, j', n, hki, by omega, hjn, hlaid, hv⟩
  | false => exact .ok ⟨i, j, m, hki, hij, by omega, .bare hfirst, hu⟩

end

end Reader

/-- A span that was merged lies where its parts do. -/
theorem lies_of_joined (hsource : (Text.bytes source).length < 4294967295) {x y span : Span}
    {m n : Nat} (hx : x.Lies source i j) (hjm : j ≤ m) (hy : y.Lies source m n)
    (hspan : Span.Joined x y span) : span.Lies source i n := by
  obtain ⟨rfl, -, -, -⟩ := hspan
  exact hx.merge hsource hjm hy

/-- The span of a path is where the path lies. -/
theorem Path.Laid.lies (hsource : (Text.bytes source).length < 4294967295) {p : Path}
    {i j : Nat} (h : p.Laid source i j) : p.span.Lies source i j := by
  cases h with
  | bare hx => exact hx
  | qualified hq hjk hx _ => exact hq.merge hsource hjk hx

theorem Expr.Laid.lies (hsource : (Text.bytes source).length < 4294967295) {e : Expr}
    {i j : Nat} (h : e.Laid source i j) : e.span.Lies source i j := by
  induction h with
  | literal hat => exact hat.lies
  | path hp => exact hp.lies hsource
  | negate hminus hjk _ hjoined ih => exact lies_of_joined hsource hminus.lies hjk ih hjoined
  | binary _ hjk _ hjoined iha ihb => exact lies_of_joined hsource iha hjk ihb hjoined

namespace Reader

/-! ### Expressions -/

theorem lays_leaf (v : Value) : Lays source (leaf v) fun o => o.expr.Laid source := by
  intro k s hs
  refine lays_next.bind hs (Nat.le_refl _) fun t u i j l hki hij hjl hat hu => ?_
  exact .ok ⟨i, j, l, hki, hij, hjl, .literal hat, hu⟩

section

variable (hsource : (Text.bytes source).length < 4294967295)
include hsource

theorem lays_atom : Lays source atom fun o => o.expr.Laid source := by
  intro k s hs
  unfold atom
  refine lands_current fun token _ => ?_
  split
  · exact lays_leaf _ k s hs
  · exact lays_leaf _ k s hs
  · exact lays_leaf _ k s hs
  · exact lays_leaf _ k s hs
  · refine lays_next.bind hs (Nat.le_refl _) fun t u i j l hki hij hjl hat hu => ?_
    split
    · exact .ok ⟨i, j, l, hki, hij, hjl, .literal hat, hu⟩
    · exact .error (by omega) hu hat.lies.pointsAt
  · refine (lays_path hsource).bind hs (Nat.le_refl _) fun p u i j l hki hij hjl hp hu => ?_
    exact .ok ⟨i, j, l, hki, hij, hjl, .path hp, hu⟩
  · exact lays_refuse _ _ k s hs

/-- What a minus and an operand after it are made into lies where they do. -/
theorem lands_negate {minus : Token} {o : Operand} {i j m n : Nat} (hs : s.Stands source l)
    (hminus : minus.At source i j) (hjm : j ≤ m) (ho : o.expr.Laid source m n) (hbi : b ≤ i)
    (hnl : n ≤ l) :
    Lands source (ofExcept (o.negate minus.span)) s b fun p =>
      State.Within source b (p.expr.Laid source) := by
  have hlies := ho.lies hsource
  have hmerged := hminus.lies.merge hsource hjm hlies
  have hin := hmerged.order
  unfold Operand.negate
  dsimp only
  split
  · exact .error (by omega) hs hmerged.pointsAt
  · have hlaid : Expr.Laid source (.negate o.expr (minus.span.merge o.expr.span)) i n :=
      .negate hminus hjm ho (hminus.lies.joined hsource hjm hlies)
    exact .ok ⟨i, n, l, hbi, hin, hnl, hlaid, hs⟩

theorem lands_binary {op : Operator} {lhs rhs : Operand} {i j m n : Nat} (hs : s.Stands source l)
    (hlhs : lhs.expr.Laid source i j) (hjm : j ≤ m) (hrhs : rhs.expr.Laid source m n)
    (hbi : b ≤ i) (hnl : n ≤ l) :
    Lands source (ofExcept (lhs.binary op rhs)) s b fun p =>
      State.Within source b (p.expr.Laid source) := by
  have hleft := hlhs.lies hsource
  have hright := hrhs.lies hsource
  have hmerged := hleft.merge hsource hjm hright
  have hin := hmerged.order
  unfold Operand.binary
  dsimp only
  split
  · exact .error (by omega) hs hmerged.pointsAt
  · have hlaid : Expr.Laid source
        (.binary op lhs.expr rhs.expr (lhs.expr.span.merge rhs.expr.span)) i n :=
      .binary hlhs hjm hrhs (hleft.joined hsource hjm hright)
    exact .ok ⟨i, n, l, hbi, hin, hnl, hlaid, hs⟩

end

/-- How deep a state is nested has no part in any of this. -/
theorem lands_nested {r : Reader Operand} {opening : Span} {Q : Operand → Nat → Nat → Prop}
    (hr : Lays source r Q) (hs : s.Stands source k) (hopening : opening.PointsAt source) :
    Lands source (nested opening r) s k fun o => State.Within source k (Q o) := by
  unfold Lands nested
  split
  · exact .error (Nat.le_refl _) hs hopening
  · have hreply := hr k _ (hs.nest (s.nesting + 1))
    unfold Lands at hreply
    generalize r { s with nesting := s.nesting + 1 } = reply at hreply ⊢
    cases hreply with
    | ok ho =>
      obtain ⟨i, j, l, hki, hij, hjl, ho, ht⟩ := ho
      exact .ok ⟨i, j, l, hki, hij, hjl, ho, ht.nest _⟩
    | error hl ht he => exact .error hl (ht.nest _) he

section

variable (hsource : (Text.bytes source).length < 4294967295)
include hsource

/-- By induction on the bound. -/
theorem lands_chain {operator? : Token.Kind → Option Operator} {operand : Reader Operand}
    (ho : Lays source operand fun o => o.expr.Laid source) (bound : List Piece) :
    ∀ {s : State} {lhs : Operand} {i j l : Nat}, s.Stands source l → lhs.expr.Laid source i j →
      b ≤ i → j ≤ l → Lands source (chain operator? operand bound lhs) s b fun o =>
        State.Within source b (o.expr.Laid source) := by
  induction bound with
  | nil =>
    intro s lhs i j l hs hlhs hbi hjl
    exact .ok ⟨i, j, l, hbi, (hlhs.lies hsource).order, hjl, hlhs, hs⟩
  | cons _ bound ih =>
    intro s lhs i j l hs hlhs hbi hjl
    have hij := (hlhs.lies hsource).order
    unfold chain
    refine lands_current fun token _ => ?_
    split
    · exact .ok ⟨i, j, l, hbi, hij, hjl, hlhs, hs⟩
    · refine lays_next.bind hs (by omega) fun _ t _ _ m hlx hxy hym _ ht => ?_
      refine ho.bind ht (by omega) fun rhs u x y n hmx hxy hyn hrhs hu => ?_
      refine (lands_binary hsource hu hlhs (by omega) hrhs hbi hyn).bind
        fun both v ⟨i', j', l', hbi', _, hjl', hboth, hv⟩ => ?_
      exact ih hv hboth hbi' hjl'

theorem lays_joined {operator? : Token.Kind → Option Operator} {operand : Reader Operand}
    (ho : Lays source operand fun o => o.expr.Laid source) :
    Lays source (joined operator? operand) fun o => o.expr.Laid source := fun _ _ hs =>
  ho.bind hs (Nat.le_refl _) fun _ t _ _ _ hki _ hjl hlhs ht =>
    lands_chain hsource ho t.rest ht hlhs hki hjl

theorem lays_sum {operand : Reader Operand}
    (ho : Lays source operand fun o => o.expr.Laid source) :
    Lays source (sum operand) fun o => o.expr.Laid source :=
  lays_joined hsource (lays_joined hsource ho)

/-- By induction on the bound. -/
theorem lays_unary (bound : Nat) : Lays source (unary bound) fun o => o.expr.Laid source := by
  induction bound with
  | zero => exact fun k s hs => lands_current fun _ htoken =>
      .error (Nat.le_refl _) hs (htoken ▸ hs.current)
  | succ bound ih =>
    intro k s hs
    unfold unary
    refine lands_current fun token _ => ?_
    split
    · refine lays_next.bind hs (Nat.le_refl _) fun minus t i j l hki _ hjl hminus ht => ?_
      refine ((lands_nested ih ht hminus.lies.pointsAt).imp (by omega) fun _ _ h => h).bind
        fun o u ⟨m, n, x, hlm, _, hnx, ho, hu⟩ => ?_
      exact lands_negate hsource hu hminus (by omega) ho hki hnx
    · refine lays_next.bind hs (Nat.le_refl _) fun paren t i j l hki _ hjl hparen ht => ?_
      refine ((lands_nested (lays_sum hsource ih) ht hparen.lies.pointsAt).imp (by omega)
        fun _ _ h => h).bind fun o u ⟨m, n, x, hlm, hmn, hnx, ho, hu⟩ => ?_
      refine (lays_expect _).bind hu (by omega) fun _ v _ _ y hxp hpq hqy _ hv => ?_
      exact .ok ⟨m, n, y, by omega, hmn, by omega, ho, hv⟩
    · exact lays_atom hsource k s hs

theorem lays_expression : Lays source expression fun o => o.expr.Laid source :=
  lays_sum hsource (lays_unary hsource _)

/-! ### Declarations -/

theorem lands_field (hs : s.Stands source k) : Lands source field s k fun f t =>
    f.Laid source ∧ t.Past source k := by
  refine lays_ident.bind hs (Nat.le_refl _) fun name t i j l hki hij hjl hname ht => ?_
  refine (lays_expect _).bind ht (by omega) fun _ u _ _ m hlx hxy hym _ hu => ?_
  refine (lays_path hsource).bind hu (by omega) fun type v x y n hmx hxy hyn htype hv => ?_
  refine (lays_expect _).bind hv (by omega) fun last w i' j' l' hni hij' hjl' hlast hw => ?_
  have hlater : j ≤ i' := by omega
  exact .ok ⟨.field hname htype hlater hlast (hname.joined hsource hlater hlast.lies), l',
    by omega, hw⟩

theorem lands_constDecl (hat : s.current.At source i j)
    (hbump : s.bump.Stands source j) : Lands source constDecl s j fun c t =>
      c.Laid source ∧ t.Past source j := by
  have hfirst : Lands source next s j fun t u => t = s.current ∧ u = s.bump := .ok ⟨rfl, rfl⟩
  refine hfirst.bind fun first t ⟨hfirst, ht⟩ => ?_
  subst hfirst ht
  refine lays_ident.bind hbump (Nat.le_refl _) fun name u x y l hjx hxy hyl hname hu => ?_
  refine (lays_expect _).bind hu (by omega) fun _ v _ _ m hlp hpq hqm _ hv => ?_
  refine (lays_expression hsource).bind hv (by omega) fun o w p q n hmp hpq hqn ho hw => ?_
  refine (lays_expect _).bind hw (by omega) fun last w' i' j' l' hni hij hjl hlast hw' => ?_
  have hlater : j ≤ i' := by omega
  exact .ok ⟨.const hat hname ho hlater hlast (hat.lies.joined hsource hlater hlast.lies), l',
    by omega, hw'⟩

/-- By induction on the bound: the fields that are read lie in the source. -/
theorem fieldsUpTo_laid (bound : List Piece) : ∀ {s : State} {k : Nat}, s.Stands source k →
    (∀ f ∈ (fieldsUpTo bound s).1, f.Laid source) ∧ (fieldsUpTo bound s).2.Past source k := by
  induction bound with
  | nil => exact fun hs => ⟨fun _ hf => absurd hf List.not_mem_nil, _, Nat.le_refl _, hs⟩
  | cons _ bound ih =>
    intro s k hs
    unfold fieldsUpTo
    split
    · exact ⟨fun _ hf => absurd hf List.not_mem_nil, k, Nat.le_refl _, hs⟩
    · have hfield := lands_field hsource hs
      unfold Lands at hfield
      generalize field s = reply at hfield ⊢
      cases hfield with
      | ok hf =>
        obtain ⟨hf, l, hkl, ht⟩ := hf
        obtain ⟨hfs, hu⟩ := ih ht
        exact ⟨List.forall_mem_cons.2 ⟨hf, hfs⟩, hu.mono hkl⟩
      | error hkl ht he =>
        obtain ⟨l, hle, hskip⟩ := (ht.report he).skipField _
        obtain ⟨hfs, hu⟩ := ih hskip
        exact ⟨hfs, hu.mono (Nat.le_trans hkl hle)⟩

theorem lands_fields (hs : s.Stands source k) : Lands source fields s k fun fs t =>
    (∀ f ∈ fs, f.Laid source) ∧ t.Past source k :=
  .ok (fieldsUpTo_laid hsource s.rest hs)

omit hsource in
/-- By induction on the bound. A repeated modifier is reported when it is passed already. -/
theorem modifiersUpTo_past (bound : List Piece) : ∀ {seen : Modifiers} {s : State} {k : Nat},
    s.Stands source k → (modifiersUpTo bound seen s).2.Past source k := by
  induction bound with
  | nil => exact fun hs => ⟨_, Nat.le_refl _, hs⟩
  | cons _ bound ih =>
    intro seen s k hs
    obtain ⟨i, j, hki, hat, hbump⟩ := hs.bump
    have hkj := Nat.le_trans hki hat.lies.order
    unfold modifiersUpTo
    split
    · exact ⟨k, Nat.le_refl _, hs⟩
    · rename_i m _
      have hnext : (if seen.has m
          then s.bump.report ⟨.duplicateModifier s.current, s.current.span⟩
          else s.bump).Stands source j := by
        split
        · exact hbump.report hat.lies.pointsAt
        · exact hbump
      exact (ih hnext).mono hkj

/-- A declaration of a type starts with a modifier or with the word itself. -/
def StartsType (kind : Token.Kind) : Prop := kind = .keyType ∨ (modifier? kind).isSome = true

omit hsource in
theorem modifiersUpTo_starts (hs : s.Stands source k) (hbump : s.bump.Stands source j)
    (hstart : StartsType s.current.kind) :
    (modifiersUpTo s.rest .empty s).2 = s ∧ s.current.kind = .keyType ∨
      (modifiersUpTo s.rest .empty s).2.Past source j := by
  have hend := hs.rest_eq_nil
  cases hrest : s.rest with
  | nil =>
    have hkind := hend.1 hrest
    rw [hkind] at hstart
    rcases hstart with hstart | hstart <;> cases hstart
  | cons p bound =>
    unfold modifiersUpTo
    split
    · rename_i hnone
      exact .inl ⟨rfl, hstart.resolve_right (by simp [hnone])⟩
    · rename_i m _
      refine .inr (modifiersUpTo_past bound ?_)
      split
      · exact hbump.report hs.current
      · exact hbump

/-- The first token of the declaration is passed, whatever becomes of it. -/
theorem lands_typeDecl (hs : s.Stands source k) (hat : s.current.At source i j)
    (hbump : s.bump.Stands source j) (hstart : StartsType s.current.kind) :
    Lands source typeDecl s j fun t u => t.Laid source ∧ u.Past source j := by
  refine lands_current fun first hfirst => ?_
  subst hfirst
  have hmodifiers : Lands source modifiers s j fun _ t =>
      t = s ∧ s.current.kind = .keyType ∨ t.Past source j :=
    .ok (modifiersUpTo_starts hs hbump hstart)
  refine hmodifiers.bind fun ms t ht => ?_
  have hkey : Lands source (expect .keyType) t j fun _ u => u.Past source j := by
    rcases ht with ⟨rfl, hkind⟩ | ⟨l, hjl, ht⟩
    · unfold Lands expect
      rw [if_pos hkind]
      exact .ok ⟨j, Nat.le_refl _, hbump⟩
    · refine (lays_expect _ l t ht).imp hjl fun _ u ⟨_, _, m, hlx, hxy, hym, _, hu⟩ => ?_
      exact ⟨m, by omega, hu⟩
  refine hkey.bind fun _ u ⟨l, hjl, hu⟩ => ?_
  refine lays_ident.bind hu hjl fun name v x y m hlx hxy hym hname hv => ?_
  have hbody (base : Option Path) (hbase : ∀ p, base = some p → ∃ x y, p.Laid source x y)
      {w : State} {n : Nat} (hw : w.Stands source n) (hjn : j ≤ n) : Lands source (do
        let _ ← expect .leftBrace
        let fs ← fields
        let last ← expect .rightBrace
        return (⟨ms, name, base, fs, s.current.span.merge last.span⟩ : TypeDecl)) w j fun t u =>
          t.Laid source ∧ u.Past source j := by
    refine (lays_expect _).bind hw hjn fun _ w₁ x₁ y₁ n₁ h₁ h₂ h₃ _ hw₁ => ?_
    refine ((lands_fields hsource hw₁).imp (by omega) fun _ _ h => h).bind
      fun fs w₂ ⟨hfs, n₂, h₄, hw₂⟩ => ?_
    refine (lays_expect _).bind hw₂ (by omega) fun last w₃ i' j' n₃ h₅ h₆ h₇ hlast hw₃ => ?_
    have hlater : j ≤ i' := by omega
    exact .ok ⟨.type hat hname hbase hfs hlater hlast
      (hat.lies.joined hsource hlater hlast.lies), n₃, by omega, hw₃⟩
  refine ((lands_skip .keyExtends hv).imp (c := j) (by omega) fun _ _ h => h).bind
    fun extended w ⟨n, hmn, hw⟩ => ?_
  split
  · have hpath : Lands source (some <$> path) w j fun base t =>
        (∀ p, base = some p → ∃ x y, p.Laid source x y) ∧ t.Past source j := by
      refine (lays_path hsource).bind hw (by omega) fun p t x' y' n' h₁ h₂ h₃ hp ht => ?_
      refine .ok ⟨fun q hq => ?_, n', by omega, ht⟩
      obtain rfl := Option.some_inj.1 hq
      exact ⟨x', y', hp⟩
    exact hpath.bind fun base t ⟨hbase, n', hjn, ht⟩ => hbody base hbase ht hjn
  · exact hbody none nofun hw (by omega)

theorem lands_item (hs : s.Stands source k) (hat : s.current.At source i j)
    (hbump : s.bump.Stands source j) : Lands source item s j fun x t =>
      x.Laid source ∧ t.Past source j := by
  have htype (hstart : StartsType s.current.kind) :
      Lands source (Item.type <$> typeDecl) s j fun x t => x.Laid source ∧ t.Past source j :=
    (lands_typeDecl hsource hs hat hbump hstart).bind fun _ _ ht => .ok ht
  unfold item
  refine lands_current fun token htoken => ?_
  subst htoken
  split
  · exact (lands_constDecl hsource hat hbump).bind fun _ _ hc => .ok hc
  · exact htype (.inl ‹_›)
  · exact htype (.inr (by simp [modifier?, *]))
  · exact htype (.inr (by simp [modifier?, *]))
  · exact .error (Nat.le_refl _) hbump hat.lies.pointsAt

/-- One declaration is read or skipped, and then others. -/
theorem itemsUpTo_step (hs : s.Stands source k) (hat : s.current.At source i j)
    (hbump : s.bump.Stands source j) (hkind : s.current.kind ≠ .eof) (p : Piece)
    (bound : List Piece) : ∃ (xs : List Item) (t : State) (l : Nat),
      itemsUpTo (p :: bound) s = (xs ++ (itemsUpTo bound t).1, (itemsUpTo bound t).2) ∧
        (∀ x ∈ xs, x.Laid source) ∧ j ≤ l ∧ t.Stands source l := by
  have hitem := lands_item hsource hs hat hbump
  unfold Lands at hitem
  rw [itemsUpTo, if_neg hkind]
  generalize item s = reply at hitem ⊢
  cases hitem with
  | ok hx =>
    obtain ⟨hx, l, hjl, ht⟩ := hx
    exact ⟨[_], _, l, rfl, List.forall_mem_singleton.2 hx, hjl, ht⟩
  | error hjl ht he =>
    obtain ⟨l, hle, hskip⟩ := (ht.report he).skipItem _
    exact ⟨[], _, l, rfl, fun _ hx => absurd hx List.not_mem_nil, Nat.le_trans hjl hle, hskip⟩

/-- By induction on the bound. -/
theorem itemsUpTo_laid (bound : List Piece) : ∀ {s : State} {k : Nat}, s.Stands source k →
    (∀ x ∈ (itemsUpTo bound s).1, x.Laid source) ∧ (itemsUpTo bound s).2.Past source k := by
  induction bound with
  | nil => exact fun hs => ⟨fun _ hx => absurd hx List.not_mem_nil, _, Nat.le_refl _, hs⟩
  | cons p bound ih =>
    intro s k hs
    by_cases hkind : s.current.kind = .eof
    · rw [itemsUpTo, if_pos hkind]
      exact ⟨fun _ hx => absurd hx List.not_mem_nil, k, Nat.le_refl _, hs⟩
    · obtain ⟨i, j, hki, hat, hbump⟩ := hs.bump
      have hij := hat.lies.order
      obtain ⟨xs, t, l, heq, hxs, hjl, ht⟩ := itemsUpTo_step hsource hs hat hbump hkind p bound
      obtain ⟨hothers, hu⟩ := ih ht
      rw [heq]
      exact ⟨List.forall_mem_append.2 ⟨hxs, hothers⟩, hu.mono (by omega)⟩

/-- Unless there is nothing but the end, the first token is passed. -/
theorem itemsUpTo_rest (hs : s.Stands source k) (hat : s.current.At source i j)
    (hbump : s.bump.Stands source j) :
    (∀ x ∈ (itemsUpTo s.rest s).1, x.Laid source) ∧ (itemsUpTo s.rest s).2.Past source j := by
  have hend := hs.rest_eq_nil
  cases hrest : s.rest with
  | nil =>
    have hstay : s.bump = s := by
      rw [State.bump, hrest, State.seek, ← hrest]
    rw [hstay] at hbump
    exact ⟨fun _ hx => absurd hx List.not_mem_nil, j, Nat.le_refl _, hbump⟩
  | cons p bound =>
    have hkind : s.current.kind ≠ .eof := fun hkind => by simp [hend.2 hkind] at hrest
    obtain ⟨xs, t, l, heq, hxs, hjl, ht⟩ := itemsUpTo_step hsource hs hat hbump hkind p bound
    obtain ⟨hothers, hu⟩ := itemsUpTo_laid hsource bound ht
    rw [heq]
    exact ⟨List.forall_mem_append.2 ⟨hxs, hothers⟩, hu.mono hjl⟩

end

end Reader

/-! ## Spans of a tree -/

/-- The spans of the path and of the names in it. -/
def Path.spans (p : Path) : List Span := p.span :: (p.qualifier.toList ++ [p.name]).map (·.span)

def Expr.spans : Expr → List Span
  | .literal _ span => [span]
  | .path p => p.spans
  | .negate e span => span :: e.spans
  | .binary _ a b span => span :: (a.spans ++ b.spans)

def FieldDecl.spans (f : FieldDecl) : List Span := f.span :: f.name.span :: f.type.spans

def TypeDecl.spans (t : TypeDecl) : List Span :=
  t.span :: t.name.span :: (t.base.toList.flatMap Path.spans ++ t.fields.flatMap FieldDecl.spans)

def ConstDecl.spans (c : ConstDecl) : List Span := c.span :: c.name.span :: c.value.spans

def Item.spans : Item → List Span
  | .type t => t.spans
  | .const c => c.spans

end Script

/-- All spans of the tree. -/
def Script.spans (s : Script) : List Span := s.span :: s.items.flatMap Script.Item.spans

namespace Script

section

variable (hsource : (Text.bytes source).length < 4294967295)
include hsource

theorem Path.Laid.spans {p : Path} (h : p.Laid source i j) :
    ∀ span ∈ p.spans, span.Sits source := by
  have hall := h.lies hsource
  cases h with
  | bare hx => exact List.forall_mem_cons.2 ⟨⟨_, _, hall⟩, List.forall_mem_singleton.2 ⟨_, _, hx⟩⟩
  | qualified hq _ hx _ =>
    exact List.forall_mem_cons.2 ⟨⟨_, _, hall⟩,
      List.forall_mem_cons.2 ⟨⟨_, _, hq⟩, List.forall_mem_singleton.2 ⟨_, _, hx⟩⟩⟩

theorem Expr.Laid.spans {e : Expr} (h : e.Laid source i j) :
    ∀ span ∈ e.spans, span.Sits source := by
  induction h with
  | literal hat => exact List.forall_mem_singleton.2 ⟨_, _, hat.lies⟩
  | path hp => exact hp.spans hsource
  | negate hminus hjk he hjoined ih =>
    have hspan := lies_of_joined hsource hminus.lies hjk (he.lies hsource) hjoined
    exact List.forall_mem_cons.2 ⟨⟨_, _, hspan⟩, ih⟩
  | binary ha hjk hb hjoined iha ihb =>
    have hspan := lies_of_joined hsource (ha.lies hsource) hjk (hb.lies hsource) hjoined
    exact List.forall_mem_cons.2 ⟨⟨_, _, hspan⟩, List.forall_mem_append.2 ⟨iha, ihb⟩⟩

theorem FieldDecl.Laid.spans {f : FieldDecl} (h : f.Laid source) :
    ∀ span ∈ f.spans, span.Sits source := by
  cases h with
  | field hname htype hjm hlast hjoined =>
    have hspan := lies_of_joined hsource hname hjm hlast.lies hjoined
    exact List.forall_mem_cons.2 ⟨⟨_, _, hspan⟩,
      List.forall_mem_cons.2 ⟨⟨_, _, hname⟩, htype.spans hsource⟩⟩

theorem TypeDecl.Laid.spans {t : TypeDecl} (h : t.Laid source) :
    ∀ span ∈ t.spans, span.Sits source := by
  cases h with
  | type hfirst hname hbase hfields hjm hlast hjoined =>
    have hspan := lies_of_joined hsource hfirst.lies hjm hlast.lies hjoined
    refine List.forall_mem_cons.2 ⟨⟨_, _, hspan⟩, List.forall_mem_cons.2 ⟨⟨_, _, hname⟩, ?_⟩⟩
    refine List.forall_mem_append.2 ⟨fun x hx => ?_, fun x hx => ?_⟩
    · obtain ⟨p, hp, hx⟩ := List.mem_flatMap.1 hx
      obtain ⟨_, _, hlaid⟩ := hbase p (Option.mem_toList.1 hp)
      exact hlaid.spans hsource x hx
    · obtain ⟨f, hf, hx⟩ := List.mem_flatMap.1 hx
      exact (hfields f hf).spans hsource x hx

theorem ConstDecl.Laid.spans {c : ConstDecl} (h : c.Laid source) :
    ∀ span ∈ c.spans, span.Sits source := by
  cases h with
  | const hfirst hname hvalue hjm hlast hjoined =>
    have hspan := lies_of_joined hsource hfirst.lies hjm hlast.lies hjoined
    exact List.forall_mem_cons.2 ⟨⟨_, _, hspan⟩,
      List.forall_mem_cons.2 ⟨⟨_, _, hname⟩, hvalue.spans hsource⟩⟩

/-- Every span of a tree that is laid over a source lies in it. -/
theorem Laid.spans {script : Script} (h : script.Laid source) :
    ∀ span ∈ script.spans, span.Sits source := by
  cases h with
  | script hitems hfirst hjm hlast hjoined =>
    have hspan := lies_of_joined hsource hfirst.lies hjm hlast.lies hjoined
    refine List.forall_mem_cons.2 ⟨⟨_, _, hspan⟩, fun span hmem => ?_⟩
    obtain ⟨x, hx, hmem⟩ := List.mem_flatMap.1 hmem
    cases x with
    | type t => exact (hitems _ hx : TypeDecl.Laid source t).spans hsource span hmem
    | const c => exact (hitems _ hx : ConstDecl.Laid source c).spans hsource span hmem

end

/-! ## Sources -/

/-- What is read is laid over the source, and what is wrong with it points there. -/
theorem parse_laid (hsource : (Text.bytes source).length < 4294967295) :
    (parse source).1.Laid source ∧ ∀ e ∈ (parse source).2, e.span.PointsAt source := by
  have hstart : (State.ofPieces (Token.ofSource source)).Stands source 0 :=
    State.stands_seek (Token.queue_ofSource hsource) fun _ he => absurd he List.not_mem_nil
  unfold parse ofPieces
  generalize State.ofPieces (Token.ofSource source) = s at hstart ⊢
  obtain ⟨i, j, -, hfirst, hbump⟩ := hstart.bump
  obtain ⟨hitems, l, hjl, hend⟩ := Reader.itemsUpTo_rest hsource hstart hfirst hbump
  obtain ⟨m, n, hlm, hlast, -⟩ := hend.bump
  have hlater : j ≤ m := Nat.le_trans hjl hlm
  exact ⟨.script hitems hfirst hlater hlast (hfirst.lies.joined hsource hlater hlast.lies),
    hend.errors⟩

end Script
end Linkage
