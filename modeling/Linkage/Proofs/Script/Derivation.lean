import Linkage.Proofs.Script.Grammar
import Linkage.Proofs.Script.Sound
import Linkage.Proofs.Script.Stream

/-!
# Linkage.Proofs.Script.Derivation

Whatever is read without an error has a derivation in the grammar.

* `Reads n r P` — read with `n` parentheses and unary minuses open, the tokens that the reader
  `r` takes and the value it gives for them are related by `P`.
* `ReadsFrom n first r P` — the same if the current token is `first`.
* `reads_path`, `reads_unary`, `reads_typeDecl` — one lemma for each reader: what it reads, the
  nonterminal of its name derives.
* `derives_of_parse?` — a source without errors is a script.

Nothing is said of a reader that fails or that reports an error on the way: errors are never taken
back, and a unit with errors has no value.
-/

namespace Linkage
namespace Script
namespace Reader

variable {α β : Type}

structure ReadsFrom (n : Nat) (first : Token) (r : Reader α) (P : List Token → α → Prop) :
    Prop where
  clean : ∀ {s a t}, r s = .ok a t → t.Clean → s.Clean
  reads : ∀ {s a t}, r s = .ok a t → t.Clean → s.nesting = n → s.current = first →
    EndsOnce s.ahead → t.nesting = n ∧ ∃ ts, s.ahead = ts.map .token ++ t.ahead ∧ P ts a

def Reads (n : Nat) (r : Reader α) (P : List Token → α → Prop) : Prop :=
  ∀ first, ReadsFrom n first r P

variable {n : Nat} {first : Token} {r : Reader α} {P : List Token → α → Prop}

/-! ## Composition -/

theorem ReadsFrom.mono {Q : List Token → α → Prop} (h : ReadsFrom n first r P)
    (hPQ : ∀ ts a, P ts a → Q ts a) : ReadsFrom n first r Q where
  clean := h.clean
  reads := by
    intro s a t hok hclean hn hfirst hends
    obtain ⟨ht, ts, heq, hP⟩ := h.reads hok hclean hn hfirst hends
    exact ⟨ht, ts, heq, hPQ ts a hP⟩

theorem Reads.mono {Q : List Token → α → Prop} (h : Reads n r P)
    (hPQ : ∀ ts a, P ts a → Q ts a) : Reads n r Q :=
  fun first => (h first).mono hPQ

theorem reads_pure {a : α} (h : P [] a) : Reads n (pure a) P := by
  intro first
  refine ⟨?_, ?_⟩
  · rintro s b t ⟨⟩ hclean
    exact hclean
  · rintro s b t ⟨⟩ - hn - -
    exact ⟨hn, [], rfl, h⟩

/-- The second reader goes on where the first one stops. -/
theorem ReadsFrom.bind {f : α → Reader β} {Q : List Token → β → Prop} (hr : ReadsFrom n first r P)
    (hf : ∀ a, Reads n (f a) fun us b => ∀ ts, P ts a → Q (ts ++ us) b) :
    ReadsFrom n first (r >>= f) Q := by
  have hsplit {s : State} {b : β} {u : State} (hok : (r >>= f) s = .ok b u) :
      ∃ a t, r s = .ok a t ∧ f a t = .ok b u := by
    change Reader.bind r f s = .ok b u at hok
    unfold Reader.bind at hok
    split at hok
    · cases hok
    · rename_i a t ha
      exact ⟨a, t, ha, hok⟩
  refine ⟨?_, ?_⟩
  · intro s b u hok hclean
    obtain ⟨a, t, ha, hb⟩ := hsplit hok
    exact hr.clean ha ((hf a t.current).clean hb hclean)
  · intro s b u hok hclean hn hfirst hends
    obtain ⟨a, t, ha, hb⟩ := hsplit hok
    obtain ⟨ht, ts, hts, hP⟩ :=
      hr.reads ha ((hf a t.current).clean hb hclean) hn hfirst hends
    obtain ⟨hu, us, hus, hQ⟩ :=
      (hf a t.current).reads hb hclean ht rfl (hends.after hts)
    refine ⟨hu, ts ++ us, ?_, hQ ts hP⟩
    rw [hts, hus, List.map_append, List.append_assoc]

theorem Reads.bind {f : α → Reader β} {Q : List Token → β → Prop} (hr : Reads n r P)
    (hf : ∀ a, Reads n (f a) fun us b => ∀ ts, P ts a → Q (ts ++ us) b) :
    Reads n (r >>= f) Q :=
  fun first => (hr first).bind hf

theorem ReadsFrom.map {f : α → β} {Q : List Token → β → Prop} (hr : ReadsFrom n first r P)
    (hf : ∀ ts a, P ts a → Q ts (f a)) : ReadsFrom n first (f <$> r) Q := by
  refine hr.bind fun a => reads_pure fun ts hP => ?_
  rw [List.append_nil]
  exact hf ts a hP

theorem Reads.map {f : α → β} {Q : List Token → β → Prop} (hr : Reads n r P)
    (hf : ∀ ts a, P ts a → Q ts (f a)) : Reads n (f <$> r) Q :=
  fun first => (hr first).map hf

/-- Looking at the current token does not move past it. -/
theorem ReadsFrom.peek {f : Token → Reader α} (h : ∀ t, ReadsFrom n t (f t) P) :
    ReadsFrom n first (current >>= f) P where
  clean := fun {s _ _} hok hclean => (h s.current).clean hok hclean
  reads := fun {s _ _} hok hclean hn _ hends => (h s.current).reads hok hclean hn rfl hends

/-- If there are tokens that were read, the first of them was the current one. -/
theorem ReadsFrom.head (h : ReadsFrom n first r fun ts a => (∀ t ∈ ts.head?, t = first) → P ts a) :
    ReadsFrom n first r P where
  clean := h.clean
  reads := by
    intro s a t hok hclean hn hfirst hends
    obtain ⟨ht, ts, hts, hP⟩ := h.reads hok hclean hn hfirst hends
    refine ⟨ht, ts, hts, hP fun u hu => ?_⟩
    cases ts with
    | nil => cases hu
    | cons v ts =>
      cases hu
      rw [State.ahead, List.map_cons, List.cons_append, List.cons.injEq, Piece.token.injEq] at hts
      exact hts.1.symm.trans hfirst

theorem Reads.and_yields {Q : α → Prop} (h : Reads n r P) (hQ : Yields r Q) :
    Reads n r fun ts a => P ts a ∧ Q a := by
  intro first
  refine ⟨(h first).clean, ?_⟩
  intro s a t hok hclean hn hfirst hends
  obtain ⟨ht, ts, hts, hP⟩ := (h first).reads hok hclean hn hfirst hends
  exact ⟨ht, ts, hts, hP, hQ s a t hok⟩

/-! ## Tokens -/

theorem readsFrom_next (h : first.kind ≠ .eof) :
    ReadsFrom n first next fun ts t => ts = [first] ∧ t = first := by
  refine ⟨?_, ?_⟩
  · rintro s a t ⟨⟩ hclean
    exact State.bump_clean hclean
  · rintro s a t ⟨⟩ hclean hn rfl hends
    exact ⟨(State.bump_nesting s).trans hn, [s.current], State.bump_ahead hclean hends h, rfl, rfl⟩

/-- A token of one kind, with whatever is made of it, or an error. -/
theorem reads_kind {kind : Token.Kind} (h : kind ≠ .eof) (f : Token → α)
    (cause : Token → ParseError) :
    Reads n (fun s => if s.current.kind = kind then .ok (f s.current) s.bump
      else .error (cause s.current) s) fun ts a => ∃ t, ts = [t] ∧ t.kind = kind ∧ a = f t := by
  intro first
  refine ⟨?_, ?_⟩
  · intro s a t hok hclean
    split at hok
    · cases hok
      exact State.bump_clean hclean
    · cases hok
  · intro s a t hok hclean hn _ hends
    split at hok
    · rename_i hkind
      cases hok
      have hahead := State.bump_ahead hclean hends (hkind ▸ h)
      exact ⟨(State.bump_nesting s).trans hn, [s.current], hahead, s.current, rfl, hkind, rfl⟩
    · cases hok

theorem reads_expect {kind : Token.Kind} (h : kind ≠ .eof) :
    Reads n (expect kind) fun ts t => ts = [t] ∧ t.kind = kind := by
  have htoken : Reads n (expect kind) fun ts t => ∃ u, ts = [u] ∧ u.kind = kind ∧ t = u :=
    reads_kind h id fun t => ⟨.expectedToken kind t, t.span⟩
  refine htoken.mono ?_
  rintro ts _ ⟨t, rfl, hkind, rfl⟩
  exact ⟨rfl, hkind⟩

theorem reads_ident : Reads n ident fun ts i =>
    ∃ t, ts = [t] ∧ t.kind = .identifier ∧ i = identOf t := by
  have heof : Token.Kind.identifier ≠ .eof := by decide
  exact reads_kind heof identOf fun t => ⟨.expectedIdentifier t, t.span⟩

theorem reads_skip {kind : Token.Kind} (h : kind ≠ .eof) :
    Reads n (skip kind) fun ts b =>
      if b = true then ∃ t, ts = [t] ∧ t.kind = kind else ts = [] := by
  intro first
  refine ⟨?_, ?_⟩
  · intro s a t hok hclean
    unfold skip at hok
    split at hok
    · cases hok
      exact State.bump_clean hclean
    · cases hok
      exact hclean
  · intro s a t hok hclean hn _ hends
    unfold skip at hok
    split at hok
    · rename_i hkind
      cases hok
      exact ⟨(State.bump_nesting s).trans hn, [s.current],
        State.bump_ahead hclean hends (hkind ▸ h), s.current, rfl, hkind⟩
    · cases hok
      exact ⟨hn, [], rfl, rfl⟩

theorem reads_ofExcept {x : Except ParseError α} (h : ∀ a, x = .ok a → P [] a) :
    Reads n (ofExcept x) P := by
  cases x with
  | error e => exact fun first => ⟨nofun, nofun⟩
  | ok a => exact reads_pure (h a rfl)

theorem reads_refuse (cause : Token → ParseError.Cause) (P : List Token → α → Prop) :
    Reads n (refuse cause) P := fun _ => ⟨nofun, nofun⟩

theorem reads_path : Reads n path PathOf := by
  refine reads_ident.bind fun q => (reads_skip (by decide)).bind fun dotted => ?_
  cases dotted with
  | true =>
    refine reads_ident.bind fun x => reads_pure ?_
    rintro _ ⟨x, rfl, hx, rfl⟩ _ ⟨dot, rfl, hdot⟩ _ ⟨m, rfl, hm, rfl⟩
    exact .qualified hm hdot hx
  | false =>
    refine reads_pure ?_
    rintro _ rfl _ ⟨x, rfl, hx, rfl⟩
    exact .bare hx

/-! ## Expressions -/

/-- An expression that fits inside the parentheses and unary minuses that are open already. -/
def ExprWithin (n : Nat) (level : Level) (ts : List Token) (e : Expr) : Prop :=
  ∃ d, d ≤ maxLevels - n ∧ ExprOf level d ts e

theorem readsFrom_leaf {v : Value} (h : LiteralOf first v) (heof : first.kind ≠ .eof) :
    ReadsFrom n first (leaf v) fun ts o => ExprOf .primary 0 ts o.expr := by
  refine (readsFrom_next heof).bind fun t => reads_pure ?_
  rintro _ ⟨rfl, rfl⟩
  exact .literal h

theorem readsFrom_atom : ReadsFrom n first atom fun ts o => ExprOf .primary 0 ts o.expr := by
  refine .peek fun t => ?_
  split
  · rename_i hkind
    exact readsFrom_leaf (.int hkind) (hkind ▸ by decide)
  · rename_i hkind
    exact readsFrom_leaf (.float hkind) (hkind ▸ by decide)
  · rename_i hkind
    exact readsFrom_leaf (.true hkind) (hkind ▸ by decide)
  · rename_i hkind
    exact readsFrom_leaf (.false hkind) (hkind ▸ by decide)
  · rename_i hkind
    refine (readsFrom_next (hkind ▸ by decide)).bind fun u => ?_
    split
    · rename_i cs hcs
      refine reads_pure ?_
      rintro _ ⟨rfl, rfl⟩
      exact .literal (.string hkind (quotedOf_of_unescape hcs))
    · exact fun _ => ⟨nofun, nofun⟩
  · refine (reads_path.bind fun p => reads_pure ?_) t
    intro ts hp
    rw [List.append_nil]
    exact .path hp
  · exact reads_refuse _ _ t

theorem Reads.nested (h : Reads (n + 1) r P) (opening : Span) :
    Reads n (nested opening r) fun ts a => n < maxLevels ∧ P ts a := by
  intro first
  refine ⟨?_, ?_⟩
  · intro s a t hok hclean
    unfold Reader.nested at hok
    split at hok
    · cases hok
    · split at hok
      · rename_i hin
        cases hok
        change ({ s with nesting := s.nesting + 1 } : State).Clean
        exact (h s.current).clean hin hclean
      · cases hok
  · intro s a t hok hclean hn _ hends
    unfold Reader.nested at hok
    split at hok
    · cases hok
    · rename_i hlow
      split at hok
      · rename_i b u hin
        cases hok
        obtain ⟨hu, ts, hts, hP⟩ :=
          (h s.current).reads hin hclean (congrArg (· + 1) hn) rfl hends
        exact ⟨by dsimp only; omega, ts, hts, by omega, hP⟩
      · cases hok

section

variable {operator? : Token.Kind → Option Operator} {operand : Reader Operand}
  {table : List (Token.Kind × Operator)} {P Q : List Token → Expr → Prop}

/-- Operands are joined as they come, so what is read so far stands to the left. -/
theorem reads_chain (htable : ∀ {kind op}, operator? kind = some op → (kind, op) ∈ table)
    (heof : operator? .eof = none) (hoperand : Reads n operand fun ts o => P ts o.expr)
    (hjoin : ∀ {ts us l r} {o : Token} {op}, Q ts l → (o.kind, op) ∈ table → P us r →
      Q (ts ++ o :: us) (.binary op l r (l.span.merge r.span))) (bound : List Piece) :
    ∀ {lhs : Operand}, Reads n (chain operator? operand bound lhs) fun us o =>
      ∀ ts, Q ts lhs.expr → Q (ts ++ us) o.expr := by
  induction bound with
  | nil =>
    intro lhs
    refine reads_pure fun ts hl => ?_
    rw [List.append_nil]
    exact hl
  | cons _ bound ih =>
    intro lhs first
    refine .peek fun o => ?_
    split
    · refine reads_pure (fun ts hl => ?_) o
      rw [List.append_nil]
      exact hl
    · rename_i op hop
      have hkind : o.kind ≠ .eof := by
        intro hkind
        rw [hkind, heof] at hop
        cases hop
      refine (readsFrom_next hkind).bind fun _ => hoperand.bind fun rhs => ?_
      refine (reads_ofExcept (P := fun us both => us = [] ∧ both.expr = .binary op lhs.expr rhs.expr
        (lhs.expr.span.merge rhs.expr.span)) fun both hboth => ⟨rfl, ?_⟩).bind fun both => ?_
      · unfold Operand.binary at hboth
        dsimp only at hboth
        split at hboth
        · cases hboth
        · cases hboth
          rfl
      · refine ih.mono ?_
        rintro vs o' ho' _ ⟨rfl, hexpr⟩ us hr _ ⟨rfl, -⟩ ts hl
        have hboth := hjoin hl (htable hop) hr
        rw [← hexpr] at hboth
        simpa using ho' _ hboth

theorem reads_joined (htable : ∀ {kind op}, operator? kind = some op → (kind, op) ∈ table)
    (heof : operator? .eof = none) (hoperand : Reads n operand fun ts o => P ts o.expr)
    (hfirst : ∀ {ts e}, P ts e → Q ts e)
    (hjoin : ∀ {ts us l r} {o : Token} {op}, Q ts l → (o.kind, op) ∈ table → P us r →
      Q (ts ++ o :: us) (.binary op l r (l.span.merge r.span))) :
    Reads n (joined operator? operand) fun ts o => Q ts o.expr := by
  refine hoperand.bind fun lhs first => ⟨?_, ?_⟩
  · intro s a t hok hclean
    exact (reads_chain (Q := Q) htable heof hoperand hjoin s.rest first).clean hok hclean
  · intro s a t hok hclean hn hf hends
    obtain ⟨ht, us, hus, hQ⟩ :=
      (reads_chain (Q := Q) htable heof hoperand hjoin s.rest first).reads hok hclean hn hf hends
    exact ⟨ht, us, hus, fun ts hl => hQ ts (hfirst hl)⟩

end

theorem ExprWithin.times {ts us : List Token} {o : Token} {op : Operator} {l r : Expr}
    (hl : ExprWithin n .term ts l) (ho : (o.kind, op) ∈ tightOperators)
    (hr : ExprWithin n .unary us r) :
    ExprWithin n .term (ts ++ o :: us) (.binary op l r (l.span.merge r.span)) := by
  obtain ⟨d, hd, hl⟩ := hl
  obtain ⟨j, hj, hr⟩ := hr
  exact ⟨max d j, by omega, .times hl ho hr⟩

theorem ExprWithin.plus {ts us : List Token} {o : Token} {op : Operator} {l r : Expr}
    (hl : ExprWithin n .expr ts l) (ho : (o.kind, op) ∈ looseOperators)
    (hr : ExprWithin n .term us r) :
    ExprWithin n .expr (ts ++ o :: us) (.binary op l r (l.span.merge r.span)) := by
  obtain ⟨d, hd, hl⟩ := hl
  obtain ⟨j, hj, hr⟩ := hr
  exact ⟨max d j, by omega, .plus hl ho hr⟩

theorem reads_sum {operand : Reader Operand}
    (h : Reads n operand fun ts o => ExprWithin n .unary ts o.expr) :
    Reads n (sum operand) fun ts o => ExprWithin n .expr ts o.expr := by
  have hterm : Reads n (joined multiplicative? operand) fun ts o => ExprWithin n .term ts o.expr :=
    reads_joined multiplicative?_eq_some.1 rfl h (fun ⟨d, hd, he⟩ => ⟨d, hd, .unary he⟩)
      ExprWithin.times
  exact reads_joined additive?_eq_some.1 rfl hterm (fun ⟨d, hd, he⟩ => ⟨d, hd, .term he⟩)
    ExprWithin.plus

/-- By induction on the bound; each step in it opens one level more. -/
theorem reads_unary (bound : Nat) :
    ∀ n, Reads n (unary bound) fun ts o => ExprWithin n .unary ts o.expr := by
  induction bound with
  | zero => exact fun n first => .peek fun t => reads_ofExcept (fun _ h => nomatch h) t
  | succ bound ih =>
    intro n first
    refine .peek fun t => ?_
    split
    · rename_i hkind
      refine (readsFrom_next (hkind ▸ by decide)).bind fun minus =>
        ((ih (n + 1)).nested minus.span).bind fun o => reads_ofExcept fun p hp => ?_
      rintro us ⟨hn, d, hd, he⟩ _ ⟨rfl, rfl⟩
      unfold Operand.negate at hp
      dsimp only at hp
      split at hp
      · cases hp
      · cases hp
        rw [List.append_nil]
        exact ⟨d + 1, by omega, .minus hkind he⟩
    · rename_i hkind
      refine (readsFrom_next (hkind ▸ by decide)).bind fun opening =>
        ((reads_sum (ih (n + 1))).nested opening.span).bind fun o =>
          (reads_expect (by decide)).bind fun closing => reads_pure ?_
      rintro _ ⟨rfl, hclosing⟩ us ⟨hn, d, hd, he⟩ _ ⟨rfl, rfl⟩
      exact ⟨d + 1, by omega, .primary (.parens hkind he hclosing)⟩
    · exact readsFrom_atom.mono fun ts o ho => ⟨0, Nat.zero_le _, .primary ho⟩

theorem reads_expression :
    Reads 0 expression fun ts o => ExprWithin 0 .expr ts o.expr :=
  reads_sum (reads_unary _ 0)

/-! ## Repetitions -/

theorem reads_field : Reads n field FieldOf := by
  refine reads_ident.bind fun x => (reads_expect (by decide)).bind fun colon =>
    reads_path.bind fun p => (reads_expect (by decide)).bind fun semicolon => reads_pure ?_
  rintro _ ⟨rfl, hsemicolon⟩ ts hp _ ⟨rfl, hcolon⟩ _ ⟨x, rfl, hx, rfl⟩
  simpa using FieldOf.field hx hcolon hp hsemicolon

theorem fieldsUpTo_clean (bound : List Piece) :
    ∀ {s : State}, (fieldsUpTo bound s).2.Clean → s.Clean := by
  induction bound with
  | nil => exact fun h => h
  | cons p bound ih =>
    intro s h
    rw [fieldsUpTo] at h
    split at h
    · exact h
    · split at h
      · rename_i f t hfield
        exact (reads_field (n := 0) s.current).clean hfield (ih h)
      · exact absurd (State.skipField_clean _ (ih h)) State.not_clean_report

theorem fieldsUpTo_reads (bound : List Piece) :
    ∀ {s : State}, s.nesting = n → EndsOnce s.ahead → (fieldsUpTo bound s).2.Clean →
      (fieldsUpTo bound s).2.nesting = n ∧ ∃ ts,
        s.ahead = ts.map .token ++ (fieldsUpTo bound s).2.ahead ∧
          Many FieldOf ts (fieldsUpTo bound s).1 := by
  induction bound with
  | nil => exact fun hn _ _ => ⟨hn, [], rfl, .nil⟩
  | cons p bound ih =>
    intro s hn hends hclean
    rw [fieldsUpTo] at hclean ⊢
    by_cases hstop : s.current.kind = .rightBrace ∨ s.current.kind = .eof
    · simp only [hstop, if_true]
      exact ⟨hn, [], rfl, .nil⟩
    · simp only [hstop, if_false] at hclean ⊢
      cases hfield : field s with
      | ok f t =>
        simp only [hfield] at hclean ⊢
        obtain ⟨ht, ts, hts, hf⟩ :=
          (reads_field s.current).reads hfield (fieldsUpTo_clean bound hclean) hn rfl hends
        obtain ⟨hu, us, hus, hfs⟩ := ih ht (hends.after hts) hclean
        refine ⟨hu, ts ++ us, ?_, .cons hf hfs⟩
        rw [hts, hus, List.map_append, List.append_assoc]
      | error e t =>
        simp only [hfield] at hclean
        exact absurd (State.skipField_clean _ (fieldsUpTo_clean bound hclean))
          State.not_clean_report

theorem reads_fields : Reads n fields (Many FieldOf) := by
  intro first
  refine ⟨?_, ?_⟩
  · rintro s fs t ⟨⟩ hclean
    exact fieldsUpTo_clean s.rest hclean
  · rintro s fs t ⟨⟩ hclean hn - hends
    exact fieldsUpTo_reads s.rest hn hends hclean

theorem modifiersUpTo_clean (bound : List Piece) :
    ∀ {seen : Modifiers} {s : State}, (modifiersUpTo bound seen s).2.Clean → s.Clean := by
  induction bound with
  | nil => exact fun h => h
  | cons p bound ih =>
    intro seen s h
    rw [modifiersUpTo] at h
    split at h
    · exact h
    · have hbump := ih h
      split at hbump
      · exact absurd hbump State.not_clean_report
      · exact State.bump_clean hbump

/-- Modifiers are added to those that are seen already; a repeated one is an error. -/
theorem modifiersUpTo_reads (bound : List Piece) :
    ∀ {seen : List Modifiers} {s : State}, (∀ m ∈ seen, m = .sealed ∨ m = .abstract) →
      s.nesting = n → EndsOnce s.ahead → (modifiersUpTo bound (unionOf seen) s).2.Clean →
      (modifiersUpTo bound (unionOf seen) s).2.nesting = n ∧ ∃ ts ms,
        s.ahead = ts.map .token ++ (modifiersUpTo bound (unionOf seen) s).2.ahead ∧
          Many ModifierOf ts ms ∧ (seen.Nodup → (seen ++ ms).Nodup) ∧
            (modifiersUpTo bound (unionOf seen) s).1 = unionOf (seen ++ ms) := by
  have hnone {seen : List Modifiers} {s : State} (hn : s.nesting = n) : s.nesting = n ∧ ∃ ts ms,
      s.ahead = ts.map .token ++ s.ahead ∧ Many ModifierOf ts ms ∧
        (seen.Nodup → (seen ++ ms).Nodup) ∧ unionOf seen = unionOf (seen ++ ms) := by
    refine ⟨hn, [], [], rfl, .nil, ?_, ?_⟩
    · simp
    · simp
  induction bound with
  | nil => exact fun _ hn _ _ => hnone hn
  | cons p bound ih =>
    intro seen s hseen hn hends hclean
    rw [modifiersUpTo] at hclean ⊢
    cases hm : modifier? s.current.kind with
    | none => exact hnone hn
    | some m =>
      have hmodifier : ModifierOf [s.current] m := modifier?_eq_some.1 hm
      simp only [hm, ← unionOf_concat] at hclean ⊢
      by_cases hnew : m ∈ seen
      · have hhas := (has_unionOf hmodifier.cases hseen).2 hnew
        simp only [hhas, if_true] at hclean
        exact absurd (modifiersUpTo_clean bound hclean) State.not_clean_report
      · have hhas := mt (has_unionOf hmodifier.cases hseen).1 hnew
        simp only [hhas, Bool.false_eq_true, if_false] at hclean ⊢
        have hkind : s.current.kind ≠ .eof := by
          intro hkind
          rw [hkind] at hm
          cases hm
        have hahead : s.ahead = [s.current].map .token ++ s.bump.ahead :=
          State.bump_ahead (modifiersUpTo_clean bound hclean) hends hkind
        obtain ⟨ht, ts, ms, hts, hms, hnodup, hall⟩ :=
          ih (forall_mem_concat hseen hmodifier.cases) ((State.bump_nesting s).trans hn)
            (hends.after hahead) hclean
        rw [List.append_assoc, List.singleton_append] at hnodup hall
        refine ⟨ht, [s.current] ++ ts, m :: ms, ?_, .cons hmodifier hms, fun h => hnodup ?_, hall⟩
        · rw [hahead, hts, List.map_append, List.append_assoc]
        · refine List.nodup_append.2 ⟨h, by simp, fun a ha b hb => ?_⟩
          rintro rfl
          exact hnew (List.mem_singleton.1 hb ▸ ha)

theorem reads_modifiers : Reads n modifiers fun ts all =>
    ∃ ms, Many ModifierOf ts ms ∧ ms.Nodup ∧ all = unionOf ms := by
  intro first
  refine ⟨?_, ?_⟩
  · rintro s all t ⟨⟩ hclean
    exact modifiersUpTo_clean s.rest hclean
  · rintro s all t ⟨⟩ hclean hn - hends
    have hnone : ∀ m ∈ ([] : List Modifiers), m = .sealed ∨ m = .abstract := nofun
    obtain ⟨ht, ts, ms, hts, hms, hnodup, hall⟩ :=
      modifiersUpTo_reads s.rest hnone hn hends hclean
    exact ⟨ht, ts, hts, ms, hms, hnodup .nil, hall⟩

/-! ## Declarations -/

theorem reads_typeDecl : Reads n typeDecl TypeOf := by
  intro _
  refine .peek fun first => .head ?_
  refine (reads_modifiers.bind fun all => (reads_expect (by decide)).bind fun key =>
    reads_ident.bind fun x => (reads_skip (by decide)).bind fun extended => ?_) first
  -- From the brace on, whatever stands between the name and it.
  have hbody (base : Option Path) : Reads n (do
      let _ ← expect .leftBrace
      let fs ← fields
      let last ← expect .rightBrace
      return (⟨all, x, base, fs, first.span.merge last.span⟩ : TypeDecl)) fun us t =>
        ∀ bs, BaseOf bs base → ∀ xs, (∃ y, xs = [y] ∧ y.kind = .identifier ∧ x = identOf y) →
          ∀ ks, ks = [key] ∧ key.kind = .keyType →
            ∀ ms, (∃ mods, Many ModifierOf ms mods ∧ mods.Nodup ∧ all = unionOf mods) →
              (∀ u ∈ (ms ++ (ks ++ (xs ++ (bs ++ us)))).head?, u = first) →
                TypeOf (ms ++ (ks ++ (xs ++ (bs ++ us)))) t := by
    refine (reads_expect (by decide)).bind fun opening => reads_fields.bind fun fs =>
      (reads_expect (by decide)).bind fun closing => reads_pure ?_
    rintro _ ⟨rfl, hclosing⟩ ts hfs _ ⟨rfl, hopening⟩ bs hbase _ ⟨x, rfl, hx, rfl⟩ _ ⟨rfl, hkey⟩ ms
      ⟨mods, hms, hnodup, rfl⟩ hhead
    have hfirst : (ms ++ [key]).head? = some first := by
      cases ms with
      | nil => simpa using hhead
      | cons m ms => simpa using hhead
    simpa using TypeOf.type hms hnodup hfirst hkey hx hbase hopening hfs hclosing
  cases extended with
  | true =>
    have hbase : Reads n (some <$> path) fun ts base => ∃ p, PathOf ts p ∧ base = some p :=
      reads_path.map fun ts p hp => ⟨p, hp, rfl⟩
    refine hbase.bind fun base => (hbody base).mono ?_
    rintro us t ht ts ⟨p, hp, rfl⟩ _ ⟨e, rfl, he⟩
    simpa using ht (e :: ts) (.extends he hp)
  | false =>
    refine (reads_pure (P := fun ts base => ts = [] ∧ base = none) ⟨rfl, rfl⟩).bind fun base =>
      (hbody base).mono ?_
    rintro us t ht _ ⟨rfl, rfl⟩ _ rfl
    exact ht [] .none

theorem readsFrom_constDecl (h : first.kind = .keyConst) : ReadsFrom 0 first constDecl ConstOf := by
  have hvalue : Reads 0 expression fun ts o => ExprWithin 0 .expr ts o.expr ∧ o.Sound :=
    reads_expression.and_yields yields_expression
  refine (readsFrom_next (h ▸ by decide)).bind fun key => reads_ident.bind fun x =>
    (reads_expect (by decide)).bind fun equal => hvalue.bind fun o =>
      (reads_expect (by decide)).bind fun semicolon => reads_pure ?_
  rintro _ ⟨rfl, hsemicolon⟩ ts ⟨⟨d, hd, he⟩, hsound⟩ _ ⟨rfl, hequal⟩ _ ⟨x, rfl, hx, rfl⟩ _
    ⟨rfl, rfl⟩
  have hheight : o.expr.height ≤ maxLevels := hsound.height ▸ hsound.bounded
  simpa using ConstOf.const h hx hequal he hd hheight hsemicolon

theorem reads_item : Reads 0 item ItemOf := by
  intro first
  refine .peek fun t => ?_
  split
  · rename_i hkind
    exact (readsFrom_constDecl hkind).map fun ts c hc => .const hc
  · exact (reads_typeDecl t).map fun ts d hd => .type hd
  · exact (reads_typeDecl t).map fun ts d hd => .type hd
  · exact (reads_typeDecl t).map fun ts d hd => .type hd
  · exact ⟨nofun, nofun⟩

/-! ## Units -/

theorem itemsUpTo_clean (bound : List Piece) :
    ∀ {s : State}, (itemsUpTo bound s).2.Clean → s.Clean := by
  induction bound with
  | nil => exact fun h => h
  | cons p bound ih =>
    intro s h
    rw [itemsUpTo] at h
    split at h
    · exact h
    · split at h
      · rename_i i t hitem
        exact (reads_item s.current).clean hitem (ih h)
      · exact absurd (State.skipItem_clean _ (ih h)) State.not_clean_report

/-- The pieces ahead are enough of a bound, since every declaration has a token of its own. -/
theorem itemsUpTo_derives (bound : List Piece) :
    ∀ {s : State}, s.nesting = 0 → EndsOnce s.ahead → s.rest.length ≤ bound.length →
      (itemsUpTo bound s).2.Clean →
      ∃ ts line col, s.ahead = (ts ++ [Token.endAt line col]).map .token ∧
        ScriptOf ts (itemsUpTo bound s).1 := by
  induction bound with
  | nil =>
    intro s _ hends hlength _
    have hnil : s.rest = [] := List.length_eq_zero_iff.1 (Nat.le_zero.1 hlength)
    obtain ⟨line, col, heq⟩ := hends.eq_end (.inr hnil)
    exact ⟨[], line, col, heq, .nil⟩
  | cons p bound ih =>
    intro s hn hends hlength hclean
    rw [itemsUpTo] at hclean ⊢
    by_cases hkind : s.current.kind = .eof
    · simp only [hkind, if_true]
      obtain ⟨line, col, heq⟩ := hends.eq_end (.inl hkind)
      exact ⟨[], line, col, heq, .nil⟩
    · simp only [hkind, if_false] at hclean ⊢
      cases hitem : item s with
      | ok i t =>
        simp only [hitem] at hclean ⊢
        obtain ⟨ht, ts, hts, hi⟩ :=
          (reads_item s.current).reads hitem (itemsUpTo_clean bound hclean) hn rfl hends
        have hshorter : t.rest.length ≤ bound.length := by
          have hpos := List.length_pos_iff.2 hi.ne_nil
          have hsum := congrArg List.length hts
          simp only [State.ahead, List.length_append, List.length_map, List.length_cons] at hsum
          rw [List.length_cons] at hlength
          omega
        obtain ⟨us, line, col, hus, hitems⟩ := ih ht (hends.after hts) hshorter hclean
        refine ⟨ts ++ us, line, col, ?_, .cons hi hitems⟩
        rw [hts, hus, ← List.map_append, List.append_assoc]
      | error e t =>
        simp only [hitem] at hclean
        exact absurd (State.skipItem_clean _ (itemsUpTo_clean bound hclean))
          State.not_clean_report

end Reader

theorem parse?_eq_ok {source : String} {script : Script} :
    parse? source = .ok script ↔ parse source = (script, []) := by
  unfold parse?
  split
  · rename_i hparse
    rw [hparse, Except.ok.injEq, Prod.mk.injEq, and_iff_left rfl]
  · rename_i hne hparse
    refine iff_of_false nofun fun h => ?_
    obtain ⟨-, rfl⟩ := Prod.mk.inj (hparse.symm.trans h)
    exact hne rfl

/-- A source that is read without errors is made of tokens, and they are a script. -/
theorem derives_of_parse? {source : String} {items : List Item} {span : Span}
    (h : parse? source = .ok ⟨items, span⟩) :
    ∃ ts line col, Token.ofSource source = (ts ++ [Token.endAt line col]).map .token ∧
      ScriptOf ts items := by
  have hends := Token.endsOnce_ofSource source
  have hn := State.ofPieces_nesting (Token.ofSource source)
  have hahead := fun h => State.ofPieces_ahead h (Token.endsOnce_ofSource source).ne_nil
  unfold parse? parse ofPieces at h
  generalize State.ofPieces (Token.ofSource source) = s at h hn hahead
  split at h
  · rename_i herrors
    cases h
    have hclean : (Reader.itemsUpTo s.rest s).2.Clean :=
      Array.toList_eq_nil_iff.1 (congrArg Prod.snd herrors)
    have hitems : (Reader.itemsUpTo s.rest s).1 = items :=
      congrArg (fun p => p.1.items) herrors
    have heq := hahead (Reader.itemsUpTo_clean _ hclean)
    obtain ⟨ts, line, col, hts, hscript⟩ :=
      Reader.itemsUpTo_derives s.rest hn (heq ▸ hends) (Nat.le_refl _) hclean
    exact ⟨ts, line, col, heq.symm.trans hts, hitems ▸ hscript⟩
  · cases h

end Script
end Linkage
