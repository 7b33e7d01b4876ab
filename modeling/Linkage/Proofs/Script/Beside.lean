import Linkage.Proofs.Script.Parses
import Linkage.Proofs.Token.Joined

/-!
# Linkage.Proofs.Script.Beside

Reading a stream of tokens beside a longer one that begins with the same tokens.

The two readings go through the same steps as long as there are tokens of the shorter stream. Where
it ends the longer one has another end or the start of a declaration, and neither is of use to a
reader that was after something else.

* `WellNested n ts` — the tokens close the `n` braces that are open and those they open.
* `Seam` — what the longer stream has where the shorter one ends.
* `Apart` — two states of such readings, with the same tokens up to the seam.
* `Together` — from related states two readers give related replies.
* `keeps_path`, `keeps_unary`, `keeps_expression` — one lemma for each reader of expressions.
-/

namespace Linkage

/-! ## Braces -/

/-- The number of braces open after a token of this kind. -/
def Token.Kind.braces : Token.Kind → Nat → Nat
  | .leftBrace, n => n + 1
  | .rightBrace, n => n - 1
  | _, n => n

/-- With `n` braces open these tokens close all that are open and all that they open. -/
def WellNested : Nat → List Token → Prop
  | n, [] => n = 0
  | n, t :: ts => (t.kind = .rightBrace → n ≠ 0) ∧ WellNested (t.kind.braces n) ts

theorem Token.Kind.braces_mono (k : Token.Kind) {n n' : Nat} (h : n ≤ n') :
    k.braces n ≤ k.braces n' := by
  cases k <;> simp only [Token.Kind.braces] <;> omega

theorem Token.Kind.le_braces {k : Token.Kind} (h : k ≠ .rightBrace) (n : Nat) : n ≤ k.braces n := by
  cases k <;> first | exact absurd rfl h | exact Nat.le_refl n | exact Nat.le_succ n

theorem Token.Kind.startsItem_cases {k : Token.Kind} (h : k.startsItem = true) :
    k = .keyType ∨ k = .keyConst ∨ k = .keySealed ∨ k = .keyAbstract := by
  revert h
  cases k <;> decide

namespace Script

/-! ## Without spans -/

def nowhere : Span := ⟨0, 0, 0⟩

def Ident.unplaced (i : Ident) : Ident := ⟨i.name, nowhere⟩

def Path.unplaced (p : Path) : Path := ⟨p.qualifier.map Ident.unplaced, p.name.unplaced⟩

def Expr.unplaced : Expr → Expr
  | .literal v _ => .literal v nowhere
  | .path p => .path p.unplaced
  | .negate e _ => .negate e.unplaced nowhere
  | .binary op l r _ => .binary op l.unplaced r.unplaced nowhere

/-- The same but for spans. -/
def Operand.Alike (a b : Operand) : Prop :=
  a.expr.unplaced = b.expr.unplaced ∧ a.height = b.height

/-! ## Two readings -/

/-- What the longer of two streams has where the shorter one ends. -/
structure Seam where
  /-- The first token there, an end or the start of a declaration. -/
  first : Token
  rest : List Piece
  /-- How many more errors the reading of the longer stream has found. -/
  extra : Nat
  stops : first.kind = .eof ∨ first.kind.startsItem = true

namespace Seam

variable (j : Seam)

def tail : List Piece := .token j.first :: j.rest

/--
Nothing in these tokens reaches beyond the seam: at least `low` braces are open and they are closed,
and no modifier is left without its type. At an end nothing has to be known.
-/
def Sealed (low : Nat) (ts : List Token) : Prop :=
  j.first.kind = .eof ∨
    (∃ n, low ≤ n ∧ WellNested n ts) ∧ ∀ t, ts.getLast? = some t → Reader.modifier? t.kind = none

variable {j : Seam}

theorem Sealed.mono {low low' : Nat} {ts : List Token} (h : j.Sealed low ts) (hle : low' ≤ low) :
    j.Sealed low' ts := by
  rcases h with h | ⟨⟨n, hn, hts⟩, hlast⟩
  · exact .inl h
  · exact .inr ⟨⟨n, hle.trans hn, hts⟩, hlast⟩

theorem Sealed.tail {low : Nat} {t : Token} {ts : List Token} (h : j.Sealed low (t :: ts)) :
    j.Sealed (t.kind.braces low) ts := by
  rcases h with h | ⟨⟨n, hn, -, hts⟩, hlast⟩
  · exact .inl h
  · refine .inr ⟨⟨_, t.kind.braces_mono hn, hts⟩, fun u hu => hlast u ?_⟩
    rw [List.getLast?_cons, hu]
    rfl

end Seam

/-- The readings have the tokens `ts` and `us` left up to the seam. -/
structure Lined (j : Seam) (n low : Nat) (ts us : List Token) (s t : State) : Prop where
  short : ∃ last, s.ahead = (ts ++ [last]).map .token ∧ last.kind = .eof
  long : t.ahead = us.map .token ++ j.tail
  alike : List.Forall₂ Token.Alike ts us
  notEnd : ∀ x ∈ ts, x.kind ≠ .eof
  closed : j.Sealed low ts
  nesting : s.nesting = n ∧ t.nesting = n
  errors : t.errors.size = s.errors.size + j.extra

/--
Two readings with the same tokens, at most `m` of them, left up to the seam, with `n` parentheses
and unary minuses open and at least `low` braces.
-/
def Apart (j : Seam) (n low m : Nat) (s t : State) : Prop :=
  ∃ ts us, Lined j n low ts us s t ∧ ts.length ≤ m

/-- Both readings are at the same token. -/
structure InStep (s t : State) : Prop where
  alike : s.current.Alike t.current
  notEnd : s.current.kind ≠ .eof

/-- The shorter stream has ended. -/
structure Ended (j : Seam) (s t : State) : Prop where
  short : s.current.kind = .eof
  long : t.current = j.first

theorem State.bump_of_rest {s : State} {t : Token} {pieces : List Piece}
    (h : s.rest = .token t :: pieces) : s.bump = { s with current := t, rest := pieces } := by
  rw [bump, h]
  rfl

namespace Lined

variable {j : Seam} {n low : Nat} {ts us : List Token} {s t : State}

theorem ended (h : Lined j n low [] us s t) : Ended j s t := by
  obtain ⟨last, hs, hlast⟩ := h.short
  have ht := h.long
  cases h.alike
  refine ⟨?_, Piece.token.inj (List.cons.inj ht).1⟩
  rw [Piece.token.inj (List.cons.inj hs).1]
  exact hlast

theorem inStep {x : Token} (h : Lined j n low (x :: ts) us s t) :
    s.current = x ∧ InStep s t := by
  obtain ⟨last, hs, -⟩ := h.short
  have ht := h.long
  obtain rfl : s.current = x := Piece.token.inj (List.cons.inj hs).1
  cases h.alike with
  | cons hxy _ =>
    rw [← Piece.token.inj (List.cons.inj ht).1] at hxy
    exact ⟨rfl, hxy, h.notEnd _ List.mem_cons_self⟩

theorem bump {x : Token} (h : Lined j n low (x :: ts) us s t) :
    ∃ vs, Lined j n (x.kind.braces low) ts vs s.bump t.bump := by
  obtain ⟨last, hs, hlast⟩ := h.short
  have ht := h.long
  cases h.alike with
  | @cons _ y _ vs _ halike =>
    have hrest : s.rest = (ts ++ [last]).map .token := (List.cons.inj hs).2
    have hrest' : t.rest = vs.map .token ++ j.tail := (List.cons.inj ht).2
    obtain ⟨p, ps, hp⟩ : ∃ p ps, (ts ++ [last]).map Piece.token = .token p :: ps := by
      cases ts with
      | nil => exact ⟨_, _, rfl⟩
      | cons p ts => exact ⟨_, _, rfl⟩
    obtain ⟨q, qs, hq⟩ : ∃ q qs, vs.map Piece.token ++ j.tail = .token q :: qs := by
      cases vs with
      | nil => exact ⟨_, _, rfl⟩
      | cons q vs => exact ⟨_, _, rfl⟩
    rw [State.bump_of_rest (hrest.trans hp), State.bump_of_rest (hrest'.trans hq)]
    exact ⟨vs, ⟨last, hp.symm, hlast⟩, hq.symm, halike,
      fun z hz => h.notEnd z (List.mem_cons_of_mem x hz), h.closed.tail, h.nesting, h.errors⟩

end Lined

namespace Apart

variable {j : Seam} {n low m : Nat} {s t : State}

theorem of_le (h : Apart j n low m s t) {m' : Nat} (hm : m ≤ m') : Apart j n low m' s t := by
  obtain ⟨ts, us, hl, hlength⟩ := h
  exact ⟨ts, us, hl, hlength.trans hm⟩

theorem lower (h : Apart j n low m s t) {low' : Nat} (hlow : low' ≤ low) :
    Apart j n low' m s t := by
  obtain ⟨ts, us, hl, hlength⟩ := h
  exact ⟨ts, us, { hl with closed := hl.closed.mono hlow }, hlength⟩

theorem cases (h : Apart j n low m s t) : InStep s t ∧ 0 < m ∨ Ended j s t := by
  obtain ⟨ts, us, hl, hlength⟩ := h
  cases ts with
  | nil => exact .inr hl.ended
  | cons x ts => exact .inl ⟨hl.inStep.2, Nat.lt_of_lt_of_le (Nat.succ_pos _) hlength⟩

theorem ended_of_zero (h : Apart j n low 0 s t) : Ended j s t := by
  obtain ⟨ts, us, hl, hlength⟩ := h
  obtain rfl := List.eq_nil_of_length_eq_zero (Nat.le_zero.1 hlength)
  exact hl.ended

/-- Then no tokens are left. -/
theorem zero_of_ended (h : Apart j n low m s t) (hended : Ended j s t) : Apart j n low 0 s t := by
  obtain ⟨ts, us, hl, -⟩ := h
  cases ts with
  | nil => exact ⟨[], us, hl, Nat.le_refl 0⟩
  | cons x ts => exact absurd hended.short hl.inStep.2.notEnd

theorem at_seam (h : Apart j n low 0 s t) :
    t.ahead = j.tail ∧ t.nesting = n ∧ t.errors.size = s.errors.size + j.extra := by
  obtain ⟨ts, us, hl, hlength⟩ := h
  obtain rfl := List.eq_nil_of_length_eq_zero (Nat.le_zero.1 hlength)
  have hlong := hl.long
  cases hl.alike
  exact ⟨hlong, hl.nesting.2, hl.errors⟩

/-- The shorter stream does not end with a brace open unless the longer one ends as well. -/
theorem ended_cases (h : Apart j n low m s t) (hended : Ended j s t) :
    t.current.kind = .eof ∨ t.current.kind.startsItem = true ∧ low = 0 := by
  obtain ⟨ts, us, hl, -⟩ := h
  cases ts with
  | nil =>
    rw [hended.long]
    rcases hl.closed with hend | ⟨⟨n, hn, hnested⟩, -⟩
    · exact .inl hend
    · obtain rfl : n = 0 := hnested
      exact j.stops.imp id fun hstop => ⟨hstop, Nat.le_zero.1 hn⟩
  | cons x ts => exact absurd hended.short hl.inStep.2.notEnd

theorem kind_eq (h : Apart j n (low + 1) m s t) : s.current.kind = t.current.kind := by
  rcases h.cases with ⟨hstep, -⟩ | hended
  · exact hstep.alike.kind
  · rcases h.ended_cases hended with hend | ⟨-, hlow⟩
    · exact hended.short.trans hend.symm
    · cases hlow

theorem bump (h : Apart j n low m s t) (hstep : InStep s t) :
    Apart j n (s.current.kind.braces low) (m - 1) s.bump t.bump := by
  obtain ⟨ts, us, hl, hlength⟩ := h
  cases ts with
  | nil => exact absurd hl.ended.short hstep.notEnd
  | cons x ts =>
    obtain ⟨vs, hbump⟩ := hl.bump
    rw [hl.inStep.1]
    exact ⟨ts, vs, hbump, Nat.le_sub_one_of_lt hlength⟩

/-- A modifier is not the last token of the shorter stream unless the longer one ends with it. -/
theorem kind_bump_eq (h : Apart j n low m s t)
    (hmodifier : Reader.modifier? s.current.kind ≠ none) :
    s.bump.current.kind = t.bump.current.kind := by
  obtain ⟨ts, us, hl, hlength⟩ := h
  cases ts with
  | nil =>
    rw [hl.ended.short] at hmodifier
    exact absurd rfl hmodifier
  | cons x ts =>
    obtain ⟨vs, hbump⟩ := hl.bump
    cases ts with
    | nil =>
      rw [hbump.ended.short, hbump.ended.long]
      rcases hl.closed with hend | ⟨-, hlast⟩
      · exact hend.symm
      · rw [hl.inStep.1] at hmodifier
        exact absurd (hlast x rfl) hmodifier
    | cons y ts => exact hbump.inStep.2.alike.kind

theorem report (h : Apart j n low m s t) (e f : ParseError) :
    Apart j n low m (s.report e) (t.report f) := by
  obtain ⟨ts, us, hl, hlength⟩ := h
  refine ⟨ts, us, ⟨hl.short, hl.long, hl.alike, hl.notEnd, hl.closed, hl.nesting, ?_⟩, hlength⟩
  have := hl.errors
  simp only [State.report, Array.size_push]
  omega

theorem nest (h : Apart j n low m s t) (n' : Nat) :
    Apart j n' low m { s with nesting := n' } { t with nesting := n' } := by
  obtain ⟨ts, us, hl, hlength⟩ := h
  exact ⟨ts, us, { hl with nesting := ⟨rfl, rfl⟩ }, hlength⟩

/-- There are as many pieces after the current token as tokens up to the seam, or more. -/
theorem exists_rest (h : Apart j n low m s t) :
    ∃ k ≤ m, Apart j n low k s t ∧ k ≤ s.rest.length ∧ k ≤ t.rest.length := by
  obtain ⟨ts, us, hl, hlength⟩ := h
  obtain ⟨last, hs, -⟩ := hl.short
  have hsize := congrArg List.length hs
  have hsize' := congrArg List.length hl.long
  have hsame := hl.alike.length_eq
  simp only [State.ahead, Seam.tail, List.length_cons, List.length_map, List.length_append,
    List.length_nil] at hsize hsize'
  exact ⟨ts.length, hlength, ⟨ts, us, hl, Nat.le_refl _⟩, by omega, by omega⟩

theorem nesting (h : Apart j n low m s t) : s.nesting = n ∧ t.nesting = n := by
  obtain ⟨ts, us, hl, -⟩ := h
  exact hl.nesting

/-- Of a kind that is neither an end nor the start of a declaration are both tokens or none. -/
theorem kind_iff (h : Apart j n low m s t) {k : Token.Kind} (hend : k ≠ .eof)
    (hitem : k.startsItem = false) : s.current.kind = k ↔ t.current.kind = k := by
  rcases h.cases with ⟨hstep, -⟩ | hended
  · rw [hstep.alike.kind]
  · refine iff_of_false (fun heq => hend (heq.symm.trans hended.short)) fun heq => ?_
    rw [hended.long] at heq
    subst heq
    rcases j.stops with hstop | hstop
    · exact hend hstop
    · rw [hstop] at hitem
      cases hitem

theorem inStep_of_kind (h : Apart j n low m s t) {k : Token.Kind} (hend : k ≠ .eof)
    (hkind : s.current.kind = k) : InStep s t := by
  rcases h.cases with ⟨hstep, -⟩ | hended
  · exact hstep
  · exact absurd (hkind.symm.trans hended.short) hend

end Apart

/-! ## Replies -/

inductive Reply.Beside {α β : Type} (R : α → β → Prop) (B E : State → State → Prop) :
    Reply α → Reply β → Prop where
  | ok {a : α} {b : β} {s t : State} : R a b → B s t → Beside R B E (.ok a s) (.ok b t)
  | error {e f : ParseError} {s t : State} : E s t → Beside R B E (.error e s) (.error f t)

namespace Reader

variable {α β α' β' : Type}

/--
From states related by `A` both readers succeed, with values related by `R` and in states related by
`B`, or both fail, in states related by `E`.
-/
def Together (A B E : State → State → Prop) (R : α → β → Prop) (r : Reader α) (r' : Reader β) :
    Prop :=
  ∀ s t, A s t → Reply.Beside R B E (r s) (r' t)

variable {A B C E : State → State → Prop} {R : α → β → Prop} {r : Reader α} {r' : Reader β}

theorem Together.mono (h : Together A B E R r r') {B' E' : State → State → Prop}
    (hB : ∀ s t, B s t → B' s t) (hE : ∀ s t, E s t → E' s t) : Together A B' E' R r r' := by
  intro s t hst
  have hreply := h s t hst
  generalize r s = x at hreply ⊢
  generalize r' t = y at hreply ⊢
  cases hreply with
  | ok hab hst => exact .ok hab (hB _ _ hst)
  | error hst => exact .error (hE _ _ hst)

theorem together_pure {a : α} {b : β} (h : R a b) : Together A A E R (pure a) (pure b) :=
  fun _ _ hst => .ok h hst

theorem Together.bind {f : α → Reader α'} {f' : β → Reader β'} {R' : α' → β' → Prop}
    (hr : Together A B E R r r') (hf : ∀ a b, R a b → Together B C E R' (f a) (f' b)) :
    Together A C E R' (r >>= f) (r' >>= f') := by
  intro s t hst
  show Reply.Beside R' C E (Reader.bind r f s) (Reader.bind r' f' t)
  unfold Reader.bind
  have hreply := hr s t hst
  generalize r s = x at hreply ⊢
  generalize r' t = y at hreply ⊢
  cases hreply with
  | ok hab hB => exact hf _ _ hab _ _ hB
  | error hE => exact .error hE

theorem Together.map {f : α → α'} {f' : β → β'} {R' : α' → β' → Prop}
    (hr : Together A B E R r r') (hf : ∀ a b, R a b → R' (f a) (f' b)) :
    Together A B E R' (f <$> r) (f' <$> r') :=
  hr.bind fun a b hab => together_pure (hf a b hab)

theorem together_ofExcept {x : Except ParseError α} {y : Except ParseError β}
    (h : (∃ a b, x = .ok a ∧ y = .ok b ∧ R a b) ∨ ∃ e f, x = .error e ∧ y = .error f) :
    Together A A A R (ofExcept x) (ofExcept y) := by
  intro s t hst
  rcases h with ⟨a, b, rfl, rfl, hab⟩ | ⟨e, f, rfl, rfl⟩
  · exact .ok hab hst
  · exact .error hst

/-! ## Tokens -/

variable {j : Seam} {n low m : Nat}

/-- Both readings are at the tokens `x` and `y`, which are alike. -/
def At (x y : Token) (A : State → State → Prop) (s t : State) : Prop :=
  A s t ∧ s.current = x ∧ t.current = y

theorem Together.at (h : Together A B E R r r') (x y : Token) : Together (At x y A) B E R r r' :=
  fun s t hst => h s t hst.1

/-- Looking at the current tokens: they are alike, or neither of them is of use. -/
theorem together_peek {f : Token → Reader α} {f' : Token → Reader β}
    (hsame : ∀ x y, x.Alike y → x.kind ≠ .eof → 0 < m →
      Together (At x y (Apart j n low m)) B E R (f x) (f' y))
    (hend : ∀ x y, x.kind = .eof → (y.kind = .eof ∨ y.kind.startsItem = true) →
      Together (Apart j n low m) B E R (f x) (f' y)) :
    Together (Apart j n low m) B E R (current >>= f) (current >>= f') := by
  intro s t hst
  rcases hst.cases with ⟨hstep, hm⟩ | hended
  · exact hsame _ _ hstep.alike hstep.notEnd hm s t ⟨hst, rfl, rfl⟩
  · refine hend _ _ hended.short ?_ s t hst
    rw [hended.long]
    exact j.stops

theorem together_next {x y : Token} (hx : x.kind ≠ .eof) (hxy : x.Alike y) :
    Together (At x y (Apart j n low m)) (Apart j n (x.kind.braces low) (m - 1)) E
      (fun a b => a = x ∧ b = y) next next := by
  rintro s t ⟨hst, rfl, rfl⟩
  exact .ok ⟨rfl, rfl⟩ (hst.bump ⟨hxy, hx⟩)

theorem together_refuse {cause cause' : Token → ParseError.Cause} :
    Together A B A R (refuse cause) (refuse cause') := fun _ _ hst => .error hst

/-- A token of one kind, with whatever is made of it, or an error. -/
theorem together_kind {k : Token.Kind} (hend : k ≠ .eof) (hitem : k.startsItem = false)
    {f : Token → α} {g : Token → β} (c d : Token → ParseError)
    (hfg : ∀ x y, x.Alike y → R (f x) (g y)) :
    Together (Apart j n low m) (Apart j n (k.braces low) (m - 1)) (Apart j n low m) R
      (fun s => if s.current.kind = k then .ok (f s.current) s.bump else .error (c s.current) s)
      (fun t => if t.current.kind = k then .ok (g t.current) t.bump
        else .error (d t.current) t) := by
  intro s t hst
  dsimp only
  by_cases hkind : s.current.kind = k
  · have hstep := hst.inStep_of_kind hend hkind
    have hbump := hst.bump hstep
    rw [hkind] at hbump
    rw [if_pos hkind, if_pos ((hst.kind_iff hend hitem).1 hkind)]
    exact .ok (hfg _ _ hstep.alike) hbump
  · rw [if_neg hkind, if_neg fun h => hkind ((hst.kind_iff hend hitem).2 h)]
    exact .error hst

/-! ## Readers that stay before the seam -/

/-- Whatever happens, both readings are still apart, with as many parentheses and braces open. -/
def Keeps (j : Seam) (n low : Nat) (R : α → β → Prop) (r : Reader α) (r' : Reader β) : Prop :=
  ∀ m, Together (Apart j n low m) (Apart j n low m) (Apart j n low m) R r r'

theorem keeps_pure {a : α} {b : β} (h : R a b) : Keeps j n low R (pure a) (pure b) :=
  fun _ => together_pure h

theorem Keeps.bind {f : α → Reader α'} {f' : β → Reader β'} {R' : α' → β' → Prop}
    (hr : Keeps j n low R r r') (hf : ∀ a b, R a b → Keeps j n low R' (f a) (f' b)) :
    Keeps j n low R' (r >>= f) (r' >>= f') :=
  fun m => (hr m).bind fun a b hab => hf a b hab m

theorem Keeps.map {f : α → α'} {f' : β → β'} {R' : α' → β' → Prop}
    (hr : Keeps j n low R r r') (hf : ∀ a b, R a b → R' (f a) (f' b)) :
    Keeps j n low R' (f <$> r) (f' <$> r') :=
  fun m => (hr m).map hf

/-- Passing a token that opens and closes no brace. -/
theorem Together.keeps {k : Token.Kind} (hk : ∀ low, k.braces low = low)
    (h : Together A (Apart j n (k.braces low) (m - 1)) E R r r') :
    Together A (Apart j n low m) E R r r' := by
  rw [hk] at h
  exact h.mono (fun _ _ h => h.of_le (Nat.sub_le m 1)) fun _ _ h => h

section

variable {k : Token.Kind}

theorem together_expect (hend : k ≠ .eof) (hitem : k.startsItem = false) :
    Together (Apart j n low m) (Apart j n (k.braces low) (m - 1)) (Apart j n low m) Token.Alike
      (expect k) (expect k) :=
  together_kind hend hitem (f := id) (g := id) (fun x => ⟨.expectedToken k x, x.span⟩)
    (fun x => ⟨.expectedToken k x, x.span⟩) fun _ _ hxy => hxy

theorem keeps_expect (hend : k ≠ .eof) (hitem : k.startsItem = false)
    (hbraces : ∀ low, k.braces low = low) :
    Keeps j n low Token.Alike (expect k) (expect k) :=
  fun _ => (together_expect hend hitem).keeps hbraces

theorem keeps_skip (hend : k ≠ .eof) (hitem : k.startsItem = false)
    (hbraces : ∀ low, k.braces low = low) : Keeps j n low Eq (skip k) (skip k) := by
  intro m s t hst
  have hiff := hst.kind_iff hend hitem
  by_cases hkind : s.current.kind = k
  · have hbump := (hst.bump (hst.inStep_of_kind hend hkind)).of_le (Nat.sub_le m 1)
    rw [hkind, hbraces] at hbump
    simp only [skip, hkind, hiff.1 hkind, if_true]
    exact .ok rfl hbump
  · simp only [skip, hkind, mt hiff.2 hkind, if_false]
    exact .ok rfl hst

end

theorem keeps_ident :
    Keeps j n low (fun x y => x.unplaced = y.unplaced) ident ident := by
  refine fun m => Together.keeps (k := .identifier) (fun _ => rfl) ?_
  exact together_kind (by decide) rfl (f := identOf) (g := identOf)
    (fun x => ⟨.expectedIdentifier x, x.span⟩) (fun x => ⟨.expectedIdentifier x, x.span⟩)
    fun x y hxy => by simp only [identOf, Ident.unplaced, hxy.lexeme]

theorem keeps_path : Keeps j n low (fun p q => p.unplaced = q.unplaced) path path := by
  refine keeps_ident.bind fun x x' hx => ?_
  refine (keeps_skip (by decide) rfl fun _ => rfl).bind ?_
  rintro dot _ rfl
  cases dot with
  | true =>
    refine keeps_ident.bind fun y y' hy => keeps_pure ?_
    simp only [Path.unplaced, Option.map_some, hx, hy]
  | false =>
    refine keeps_pure ?_
    simp only [Path.unplaced, Option.map_none, hx]

/-! ## Expressions -/

theorem together_leaf {x y : Token} (hx : x.kind ≠ .eof) (hbraces : ∀ low, x.kind.braces low = low)
    (hxy : x.Alike y) (v : Value) :
    Together (At x y (Apart j n low m)) (Apart j n low m) (Apart j n low m) Operand.Alike
      (leaf v) (leaf v) :=
  ((together_next hx hxy).keeps hbraces).bind fun _ _ _ => together_pure ⟨rfl, rfl⟩

theorem keeps_atom : Keeps j n low Operand.Alike atom atom := by
  intro m
  refine together_peek ?_ ?_
  · intro x y hxy hx _
    have hpath : Together (At x y (Apart j n low m)) (Apart j n low m) (Apart j n low m)
        Operand.Alike (do let p ← path; return ⟨.path p, 1⟩)
        (do let p ← path; return ⟨.path p, 1⟩) := by
      refine ((keeps_path m).bind fun p q hpq => ?_).at x y
      exact together_pure ⟨congrArg Expr.path hpq, rfl⟩
    have hrefuse : Together (At x y (Apart j n low m)) (Apart j n low m) (Apart j n low m)
        Operand.Alike (refuse .expectedExpression) (refuse .expectedExpression) :=
      together_refuse.at x y
    rw [← hxy.kind, ← hxy.lexeme]
    cases hkind : x.kind with
    | intLiteral => exact together_leaf hx (by rw [hkind]; exact fun _ => rfl) hxy _
    | floatLiteral => exact together_leaf hx (by rw [hkind]; exact fun _ => rfl) hxy _
    | keyTrue => exact together_leaf hx (by rw [hkind]; exact fun _ => rfl) hxy _
    | keyFalse => exact together_leaf hx (by rw [hkind]; exact fun _ => rfl) hxy _
    | stringLiteral =>
      refine ((together_next hx hxy).keeps (by rw [hkind]; exact fun _ => rfl)).bind ?_
      rintro a b ⟨ha, hb⟩
      rw [ha, hb, ← hxy.lexeme]
      cases unescape (unquoted x.lexeme) with
      | ok cs => exact together_pure ⟨rfl, rfl⟩
      | error c => exact fun _ _ h => .error h
    | identifier => exact hpath
    | _ => exact hrefuse
  · intro x y hx hy
    rw [hx]
    have hrefuse : Together (Apart j n low m) (Apart j n low m) (Apart j n low m) Operand.Alike
        (refuse .expectedExpression) (refuse .expectedExpression) := together_refuse
    rcases hy with hy | hy
    · rw [hy]
      exact hrefuse
    · rcases Token.Kind.startsItem_cases hy with hy | hy | hy | hy
      all_goals
        rw [hy]
        exact hrefuse

/-- Reading one level further inside, both readings have one more open, and then one less. -/
theorem Keeps.nested {opening opening' : Span} (h : Keeps j (n + 1) low R r r') :
    Keeps j n low R (nested opening r) (nested opening' r') := by
  intro m s t hst
  obtain ⟨hs, ht⟩ := hst.nesting
  unfold Reader.nested
  rw [hs, ht]
  split
  · exact .error hst
  · have hinside := h m _ _ (hst.nest (n + 1))
    generalize r { s with nesting := n + 1 } = x at hinside ⊢
    generalize r' { t with nesting := n + 1 } = y at hinside ⊢
    cases hinside with
    | ok hab hA =>
      obtain ⟨hs', ht'⟩ := hA.nesting
      dsimp only
      rw [hs', ht']
      exact .ok hab (hA.nest n)
    | error hA =>
      obtain ⟨hs', ht'⟩ := hA.nesting
      dsimp only
      rw [hs', ht']
      exact .error (hA.nest n)

section

variable {operator? : Token.Kind → Option Operator} {operand : Reader Operand}
  (hend : operator? .eof = none) (hitem : ∀ k, k.startsItem = true → operator? k = none)
  (hbraces : ∀ k op, operator? k = some op → ∀ low, k.braces low = low)
  (hoperand : Keeps j n low Operand.Alike operand operand)

theorem together_binary (op : Operator) {l l' r r' : Operand} (hl : l.Alike l')
    (hr : r.Alike r') :
    Together A A A Operand.Alike (ofExcept (l.binary op r)) (ofExcept (l'.binary op r')) := by
  refine together_ofExcept ?_
  unfold Operand.binary
  dsimp only
  rw [← hl.2, ← hr.2]
  split
  · exact .inr ⟨_, _, rfl, rfl⟩
  · exact .inl ⟨_, _, rfl, rfl, congrArg₂ (Expr.binary op · · nowhere) hl.1 hr.1, rfl⟩

include hend hitem in
theorem Ended.operator?_eq_none {s t : State} (h : Ended j s t) :
    operator? s.current.kind = none ∧ operator? t.current.kind = none := by
  rw [h.short, h.long]
  rcases j.stops with hstop | hstop
  · rw [hstop]
    exact ⟨hend, hend⟩
  · exact ⟨hend, hitem _ hstop⟩

include hend hitem hbraces hoperand in
/-- By induction on the tokens left up to the seam; each operator is one of them. -/
theorem together_chain : ∀ (m : Nat) {bound bound' : List Piece} {l l' : Operand},
    m ≤ bound.length → m ≤ bound'.length → l.Alike l' →
      Together (Apart j n low m) (Apart j n low m) (Apart j n low m) Operand.Alike
        (chain operator? operand bound l) (chain operator? operand bound' l') := by
  intro m
  induction m with
  | zero =>
    intro bound bound' l l' _ _ hl s t hst
    obtain ⟨hs, ht⟩ := Ended.operator?_eq_none hend hitem hst.ended_of_zero
    rw [chain_of_none hs, chain_of_none ht]
    exact .ok hl hst
  | succ m ih =>
    intro bound bound' l l' hbound hbound' hl s t hst
    rcases hst.cases with ⟨hstep, -⟩ | hended
    · cases hop : operator? s.current.kind with
      | none =>
        rw [chain_of_none hop, chain_of_none (hstep.alike.kind ▸ hop)]
        exact .ok hl hst
      | some op =>
        obtain ⟨p, bound, rfl⟩ := List.exists_cons_of_length_pos (Nat.zero_lt_of_lt hbound)
        obtain ⟨p', bound', rfl⟩ := List.exists_cons_of_length_pos (Nat.zero_lt_of_lt hbound')
        rw [chain_of_some hop, chain_of_some (hstep.alike.kind ▸ hop)]
        have hbump := hst.bump hstep
        rw [hbraces _ op hop] at hbump
        have hgo := (hoperand m).bind fun r r' hr => (together_binary op hl hr).bind
          fun b b' hb => ih (Nat.le_of_succ_le_succ hbound) (Nat.le_of_succ_le_succ hbound') hb
        have hkeep : ∀ s t, Apart j n low m s t → Apart j n low (m + 1) s t :=
          fun _ _ h => h.of_le (Nat.le_succ m)
        exact hgo.mono hkeep hkeep _ _ hbump
    · obtain ⟨hs, ht⟩ := Ended.operator?_eq_none hend hitem hended
      rw [chain_of_none hs, chain_of_none ht]
      exact .ok hl hst

include hend hitem hbraces hoperand in
theorem keeps_joined : Keeps j n low Operand.Alike (joined operator? operand)
    (joined operator? operand) := by
  refine hoperand.bind fun l l' hl m s t hst => ?_
  obtain ⟨k, hk, hst, hs, ht⟩ := hst.exists_rest
  have hkeep : ∀ s t, Apart j n low k s t → Apart j n low m s t :=
    fun _ _ h => h.of_le hk
  exact (together_chain hend hitem hbraces hoperand k hs ht hl).mono hkeep hkeep _ _ hst

end

theorem braces_of_additive {k : Token.Kind} {op : Operator} (h : additive? k = some op)
    (low : Nat) : k.braces low = low := by
  unfold additive? at h
  split at h <;> first | rfl | cases h

theorem braces_of_multiplicative {k : Token.Kind} {op : Operator} (h : multiplicative? k = some op)
    (low : Nat) : k.braces low = low := by
  unfold multiplicative? at h
  split at h <;> first | rfl | cases h

theorem keeps_sum {operand : Reader Operand}
    (hoperand : Keeps j n low Operand.Alike operand operand) :
    Keeps j n low Operand.Alike (sum operand) (sum operand) := by
  refine keeps_joined rfl ?_ (fun _ _ => braces_of_additive) (keeps_joined rfl ?_
    (fun _ _ => braces_of_multiplicative) hoperand)
  · intro k hk
    rcases Token.Kind.startsItem_cases hk with rfl | rfl | rfl | rfl <;> rfl
  · intro k hk
    rcases Token.Kind.startsItem_cases hk with rfl | rfl | rfl | rfl <;> rfl

theorem keeps_negate {span span' : Span} {a b : Operand} (h : a.Alike b) :
    Keeps j n low Operand.Alike (ofExcept (a.negate span)) (ofExcept (b.negate span')) := by
  intro m
  refine together_ofExcept ?_
  unfold Operand.negate
  dsimp only
  rw [← h.2]
  split
  · exact .inr ⟨_, _, rfl, rfl⟩
  · exact .inl ⟨_, _, rfl, rfl, congrArg (Expr.negate · nowhere) h.1, rfl⟩

/-- By induction on the bound; what is inside is read with one more open. -/
theorem keeps_unary (bound : Nat) :
    ∀ {n low : Nat}, Keeps j n low Operand.Alike (unary bound) (unary bound) := by
  induction bound with
  | zero =>
    intro n low m
    exact together_peek (fun x y _ _ _ => (together_ofExcept (.inr ⟨_, _, rfl, rfl⟩)).at x y)
      fun _ _ _ _ => together_ofExcept (.inr ⟨_, _, rfl, rfl⟩)
  | succ bound ih =>
    intro n low m
    refine together_peek ?_ ?_
    · intro x y hxy hx _
      have hatom : Together (At x y (Apart j n low m)) (Apart j n low m) (Apart j n low m)
          Operand.Alike atom atom :=
        (keeps_atom m).at x y
      rw [← hxy.kind]
      cases hkind : x.kind with
      | minus =>
        refine ((together_next hx hxy).keeps (by rw [hkind]; exact fun _ => rfl)).bind ?_
        intro _ _ _
        exact (ih.nested m).bind fun o o' ho => keeps_negate ho m
      | leftParen =>
        refine ((together_next hx hxy).keeps (by rw [hkind]; exact fun _ => rfl)).bind ?_
        intro _ _ _
        refine ((keeps_sum ih).nested m).bind fun o o' ho => ?_
        exact (keeps_expect (by decide) rfl (fun _ => rfl) m).bind fun _ _ _ => together_pure ho
      | _ => exact hatom
    · intro x y hx hy
      rw [hx]
      rcases hy with hy | hy
      · rw [hy]
        exact keeps_atom m
      · rcases Token.Kind.startsItem_cases hy with hy | hy | hy | hy
        all_goals
          rw [hy]
          exact keeps_atom m

theorem keeps_expression : Keeps j n low Operand.Alike expression expression :=
  keeps_sum (keeps_unary (maxLevels + 1))

end Reader

end Script
end Linkage
