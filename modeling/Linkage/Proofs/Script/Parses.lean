import Linkage.Proofs.Script.Derivation

/-!
# Linkage.Proofs.Script.Parses

Whatever has a derivation is read, and so a source is read exactly if it has one.

* `Takes n follows r ts a` — read with `n` parentheses and unary minuses open, the reader `r`
  takes the tokens `ts` for the value `a` and stops there, if what comes next satisfies `follows`.
* `Gathers n follows operator? operand ts o` — the operands joined in `ts` come down to one, with
  room for as many further ones as there are tokens.
* `takes_of_exprOf` — expressions, by induction on the derivation.
* `parse?_iff_scriptOf` — a source without lexical errors has declarations exactly if its tokens
  derive them, and no tokens derive different ones.
-/

namespace Linkage
namespace Script

/-- The state with these tokens ahead and no error so far. -/
def State.facing (n : Nat) : List Token → State
  | [] => ⟨.endAt 1 1, [], n, #[]⟩
  | t :: ts => ⟨t, ts.map .token, n, #[]⟩

theorem State.bump_facing {n : Nat} {t : Token} {ts : List Token} (h : ts ≠ []) :
    (facing n (t :: ts)).bump = facing n ts := by
  cases ts with
  | nil => exact absurd rfl h
  | cons u us => rfl

theorem State.ofPieces_tokens (ts : List Token) :
    State.ofPieces (ts.map .token) = facing 0 ts := by
  cases ts with
  | nil => rfl
  | cons t ts => rfl

theorem State.length_rest_facing {n : Nat} {ts us : List Token} {u : Token} :
    (facing n (ts ++ u :: us)).rest.length = ts.length + us.length := by
  cases ts with
  | nil => simp [facing]
  | cons t ts =>
    simp [facing]
    omega

namespace Reader

open State

variable {α β : Type} {n : Nat} {follows : Token.Kind → Prop} {r : Reader α} {ts : List Token}
  {a : α}

def Takes (n : Nat) (follows : Token.Kind → Prop) (r : Reader α) (ts : List Token) (a : α) :
    Prop :=
  ∀ u us, follows u.kind → r (facing n (ts ++ u :: us)) = .ok a (facing n (u :: us))

/-- What comes next does not matter. -/
def anything : Token.Kind → Prop := fun _ => True

/-! ## Composition -/

theorem bind_of_ok {f : α → Reader β} {s t : State} (h : r s = .ok a t) :
    (r >>= f) s = f a t := by
  show Reader.bind r f s = _
  simp only [Reader.bind, h]

theorem takes_pure : Takes n follows (pure a) [] a := fun _ _ _ => rfl

/-- The second reader goes on where the first one stops. -/
theorem Takes.andThen {f : α → Reader β} {us : List Token} {b : β}
    (hr : Takes n anything r ts a) (hf : Takes n follows (f a) us b) :
    Takes n follows (r >>= f) (ts ++ us) b := by
  intro u ws hu
  have hstep : r (facing n (ts ++ (us ++ u :: ws))) = .ok a (facing n (us ++ u :: ws)) := by
    cases us with
    | nil => exact hr u ws trivial
    | cons v vs => exact hr v (vs ++ u :: ws) trivial
  rw [List.append_assoc, bind_of_ok hstep]
  exact hf u ws hu

/-- The same if the first token of the second reader is one at which the first one stops. -/
theorem Takes.bind {f : α → Reader β} {mid : Token.Kind → Prop} {t : Token} {us : List Token}
    {b : β} (hr : Takes n mid r ts a) (ht : mid t.kind) (hf : Takes n follows (f a) (t :: us) b) :
    Takes n follows (r >>= f) (ts ++ t :: us) b := by
  intro u ws hu
  have hstep := hr t (us ++ u :: ws) ht
  rw [List.append_assoc, List.cons_append, bind_of_ok hstep]
  exact hf u ws hu

/-- The same if the second reader takes nothing. -/
theorem Takes.last {f : α → Reader β} {b : β} (hr : Takes n follows r ts a)
    (hf : Takes n follows (f a) [] b) : Takes n follows (r >>= f) ts b := by
  intro u ws hu
  rw [bind_of_ok (hr u ws hu)]
  exact hf u ws hu

theorem Takes.map {f : α → β} (hr : Takes n follows r ts a) :
    Takes n follows (f <$> r) ts (f a) :=
  hr.last (f := fun a => pure (f a)) takes_pure

theorem Takes.peek {f : Token → Reader α} {t : Token} (ht : ts.head? = some t)
    (h : Takes n follows (f t) ts a) : Takes n follows (current >>= f) ts a := by
  cases ts with
  | nil => cases ht
  | cons t' ts =>
    cases ht
    exact fun u us hu => h u us hu

theorem Takes.apply {us : List Token} (h : Takes n anything r ts a) (hne : us ≠ []) :
    r (facing n (ts ++ us)) = .ok a (facing n us) := by
  cases us with
  | nil => exact absurd rfl hne
  | cons u us => exact h u us trivial

/-! ## Tokens -/

theorem takes_next {t : Token} : Takes n anything next [t] t := fun _ _ _ => rfl

theorem takes_expect {t : Token} {kind : Token.Kind} (h : t.kind = kind) :
    Takes n anything (expect kind) [t] t := by
  intro u us _
  show expect kind (facing n (t :: u :: us)) = _
  simp only [expect, facing, h, if_true]
  rfl

theorem takes_ident {t : Token} (h : t.kind = .identifier) :
    Takes n anything ident [t] (identOf t) := by
  intro u us _
  show ident (facing n (t :: u :: us)) = _
  simp only [ident, facing, h, if_true]
  rfl

theorem takes_skip {t : Token} {kind : Token.Kind} (h : t.kind = kind) :
    Takes n anything (skip kind) [t] true := by
  intro u us _
  show skip kind (facing n (t :: u :: us)) = _
  simp only [skip, facing, h, if_true]
  rfl

theorem takes_skip_nothing {kind : Token.Kind} : Takes n (· ≠ kind) (skip kind) [] false := by
  intro u us hu
  show skip kind (facing n (u :: us)) = _
  simp only [skip, facing, hu, if_false]

theorem takes_path {p : Path} (h : PathOf ts p) : Takes n (· ≠ .dot) path ts p := by
  cases h with
  | bare hx =>
    exact (takes_ident hx).andThen (takes_skip_nothing.last takes_pure)
  | qualified hm hdot hx =>
    exact (takes_ident hm).andThen ((takes_skip hdot).andThen
      ((takes_ident hx).andThen takes_pure))

/-! ## Operands -/

theorem takes_leaf {t : Token} {v : Value} :
    Takes n anything (leaf v) [t] ⟨.literal v t.span, 1⟩ :=
  takes_next.andThen takes_pure

theorem takes_literal {t : Token} {v : Value} (h : LiteralOf t v) :
    Takes n anything atom [t] ⟨.literal v t.span, 1⟩ := by
  refine .peek rfl ?_
  cases h with
  | int hkind =>
    rw [hkind]
    exact takes_leaf
  | float hkind =>
    rw [hkind]
    exact takes_leaf
  | true hkind =>
    rw [hkind]
    exact takes_leaf
  | false hkind =>
    rw [hkind]
    exact takes_leaf
  | string hkind hquoted =>
    rw [hkind]
    refine takes_next.last ?_
    simp only [hquoted.unescape]
    exact takes_pure

/-- Inside, one more is open; a reader that stops there leaves it as it was. -/
theorem Takes.nested (h : Takes (n + 1) follows r ts a) (hn : n < maxLevels) (opening : Span) :
    Takes n follows (nested opening r) ts a := by
  intro u us hu
  have hin := h u us hu
  have hlow : ¬ maxLevels ≤ (facing n (ts ++ u :: us)).nesting := by
    cases ts with
    | nil => exact Nat.not_le.2 hn
    | cons t ts => exact Nat.not_le.2 hn
  have hopen : { facing n (ts ++ u :: us) with
      nesting := (facing n (ts ++ u :: us)).nesting + 1 } = facing (n + 1) (ts ++ u :: us) := by
    cases ts with
    | nil => rfl
    | cons t ts => rfl
  simp only [Reader.nested, hlow, if_false, hopen, hin]
  rfl

def Gathers (n : Nat) (follows : Token.Kind → Prop) (operator? : Token.Kind → Option Operator)
    (operand : Reader Operand) (ts : List Token) (o : Operand) : Prop :=
  ∀ u us, follows u.kind → ∃ bound : List Piece, us.length ≤ bound.length ∧
    joined operator? operand (facing n (ts ++ u :: us)) =
      chain operator? operand bound o (facing n (u :: us))

section

variable {operator? : Token.Kind → Option Operator} {operand : Reader Operand} {us : List Token}
  {o p q : Operand}

theorem chain_of_some {bound : List Piece} {piece : Piece} {op : Operator} {s : State}
    (h : operator? s.current.kind = some op) :
    chain operator? operand (piece :: bound) o s =
      (operand >>= fun rhs => ofExcept (o.binary op rhs) >>= chain operator? operand bound)
        s.bump := by
  rw [chain]
  simp only [Bind.bind, Reader.bind, current, next, h]

theorem chain_of_none {bound : List Piece} {s : State} (h : operator? s.current.kind = none) :
    chain operator? operand bound o s = .ok o s := by
  cases bound with
  | nil => rfl
  | cons piece bound =>
    rw [chain]
    simp only [Bind.bind, Reader.bind, current, h]
    rfl

theorem Takes.gathers (h : Takes n follows operand ts o) :
    Gathers n follows operator? operand ts o := by
  intro u us hu
  refine ⟨us.map .token, Nat.le_of_eq (List.length_map _).symm, ?_⟩
  show Reader.bind operand _ _ = _
  simp only [Reader.bind, h u us hu]
  rfl

theorem Gathers.next (ho : Gathers n follows operator? operand ts o) {t : Token} {op : Operator}
    (hop : operator? t.kind = some op) (ht : follows t.kind) (hp : Takes n follows operand us p)
    (hq : o.binary op p = .ok q) : Gathers n follows operator? operand (ts ++ t :: us) q := by
  intro u ws hu
  obtain ⟨bound, hlength, heq⟩ := ho t (us ++ u :: ws) ht
  cases bound with
  | nil =>
    rw [List.length_append, List.length_cons] at hlength
    exact absurd hlength (by simp)
  | cons piece bound =>
    refine ⟨bound, ?_, ?_⟩
    · simp only [List.length_append, List.length_cons] at hlength
      omega
    · have hbump : (facing n (t :: (us ++ u :: ws))).bump = facing n (us ++ u :: ws) :=
        bump_facing (by simp)
      have hcurrent : operator? (facing n (t :: (us ++ u :: ws))).current.kind = some op := hop
      rw [List.append_assoc, List.cons_append, heq, chain_of_some hcurrent, hbump,
        bind_of_ok (hp u ws hu), hq]
      rfl

theorem Gathers.takes (ho : Gathers n follows operator? operand ts o) :
    Takes n (fun kind => follows kind ∧ operator? kind = none) (joined operator? operand) ts o := by
  rintro u us ⟨hu, hnone⟩
  obtain ⟨bound, -, heq⟩ := ho u us hu
  have hcurrent : operator? (facing n (u :: us)).current.kind = none := hnone
  rw [heq, chain_of_none hcurrent]

end

/-! ## Expressions -/

theorem binary_ok {op : Operator} {l r : Expr}
    (h : (Expr.binary op l r (l.span.merge r.span)).height ≤ maxLevels) :
    Operand.binary op ⟨l, l.height⟩ ⟨r, r.height⟩ = .ok ⟨.binary op l r (l.span.merge r.span),
      (Expr.binary op l r (l.span.merge r.span)).height⟩ := by
  simp only [Expr.height] at h
  have hlow : ¬ maxLevels ≤ max l.height r.height := by omega
  simp only [Operand.binary, hlow, if_false, Expr.height]

theorem negate_ok {minus : Span} {e : Expr}
    (h : (Expr.negate e (minus.merge e.span)).height ≤ maxLevels) :
    Operand.negate minus ⟨e, e.height⟩ = .ok ⟨.negate e (minus.merge e.span),
      (Expr.negate e (minus.merge e.span)).height⟩ := by
  simp only [Expr.height] at h
  have hlow : ¬ maxLevels ≤ e.height := by omega
  simp only [Operand.negate, hlow, if_false, Expr.height]

/-- The operands that are read with this many open, with the bound that is left for them. -/
def operandsAt (n : Nat) : Reader Operand := unary (maxLevels + 1 - n)

theorem operandsAt_eq (h : n ≤ maxLevels) : operandsAt n = unary (maxLevels - n + 1) := by
  rw [operandsAt]
  congr 1
  omega

theorem operandsAt_succ : operandsAt (n + 1) = unary (maxLevels - n) := by
  rw [operandsAt, Nat.add_sub_add_right]

/-- What may come after a term. -/
def afterTerm (kind : Token.Kind) : Prop := kind ≠ .dot ∧ multiplicative? kind = none

/-- What may come after an expression. -/
def afterExpr (kind : Token.Kind) : Prop := afterTerm kind ∧ additive? kind = none

theorem afterTerm_of_additive {kind : Token.Kind} {op : Operator} (h : additive? kind = some op) :
    afterTerm kind := by
  have hmem := additive?_eq_some.1 h
  simp only [looseOperators, List.mem_cons, Prod.mk.injEq, List.not_mem_nil, or_false] at hmem
  rcases hmem with ⟨rfl, -⟩ | ⟨rfl, -⟩
  · exact ⟨by decide, rfl⟩
  · exact ⟨by decide, rfl⟩

theorem ne_dot_of_multiplicative {kind : Token.Kind} {op : Operator}
    (h : multiplicative? kind = some op) : kind ≠ .dot := by
  rintro rfl
  cases h

theorem takes_unary_of_atom {t : Token} {bound : Nat} {o : Operand} (hminus : t.kind ≠ .minus)
    (hparen : t.kind ≠ .leftParen) (h : Takes n follows atom (t :: ts) o) :
    Takes n follows (unary (bound + 1)) (t :: ts) o := by
  refine .peek rfl ?_
  split
  · exact absurd ‹_› hminus
  · exact absurd ‹_› hparen
  · exact h

theorem takes_pathOperand {p : Path} {bound : Nat} (h : PathOf ts p) :
    Takes n (· ≠ .dot) (unary (bound + 1)) ts ⟨.path p, 1⟩ := by
  have hoperand : Takes n (· ≠ .dot) (path >>= fun p => pure (⟨.path p, 1⟩ : Operand)) ts
      ⟨.path p, 1⟩ :=
    (takes_path h).map (f := fun p => (⟨.path p, 1⟩ : Operand))
  have hatom {t : Token} {us : List Token} (ht : t.kind = .identifier) (hts : ts = t :: us) :
      Takes n (· ≠ .dot) (unary (bound + 1)) ts ⟨.path p, 1⟩ := by
    subst hts
    refine takes_unary_of_atom (by simp [ht]) (by simp [ht]) (.peek rfl ?_)
    rw [ht]
    exact hoperand
  cases h with
  | bare hx => exact hatom hx rfl
  | qualified hm _ _ => exact hatom hm rfl

/-- How the readers take what a nonterminal derives. -/
def TakesAt (n : Nat) (ts : List Token) (e : Expr) : Level → Prop
  | .primary => Takes n (· ≠ .dot) (operandsAt n) ts ⟨e, e.height⟩
  | .unary => Takes n (· ≠ .dot) (operandsAt n) ts ⟨e, e.height⟩
  | .term => Gathers n (· ≠ .dot) multiplicative? (operandsAt n) ts ⟨e, e.height⟩
  | .expr => Gathers n afterTerm additive? (joined multiplicative? (operandsAt n)) ts ⟨e, e.height⟩

/-- An expression is taken whole if nothing comes next that could be a part of it. -/
theorem TakesAt.sum {e : Expr} (h : TakesAt n ts e .expr) :
    Takes n afterExpr (sum (operandsAt n)) ts ⟨e, e.height⟩ :=
  Gathers.takes h

theorem takes_of_exprOf {level : Level} {d : Nat} {e : Expr} (h : ExprOf level d ts e) :
    ∀ n, n + d ≤ maxLevels → e.height ≤ maxLevels → TakesAt n ts e level := by
  induction h with
  | literal hliteral =>
    intro n hn _
    show Takes n (· ≠ .dot) (operandsAt n) _ _
    obtain ⟨hminus, hparen⟩ := hliteral.kind_ne
    rw [operandsAt_eq (by omega)]
    exact takes_unary_of_atom hminus hparen fun u us _ => takes_literal hliteral u us trivial
  | path hpath =>
    intro n hn _
    show Takes n (· ≠ .dot) (operandsAt n) _ _
    rw [operandsAt_eq (by omega)]
    exact takes_pathOperand hpath
  | @parens opening closing d ts e hopening _ hclosing ih =>
    intro n hn hheight
    show Takes n (· ≠ .dot) (operandsAt n) _ _
    have hinside := (ih (n + 1) (by omega) hheight).sum.nested (by omega) opening.span
    rw [operandsAt_succ] at hinside
    rw [operandsAt_eq (by omega)]
    refine .peek rfl ?_
    rw [hopening]
    have hafter : afterExpr closing.kind := by
      rw [hclosing]
      exact ⟨⟨by decide, rfl⟩, rfl⟩
    exact takes_next.andThen (hinside.bind hafter ((takes_expect hclosing).andThen takes_pure))
  | primary _ ih => exact ih
  | @minus minus d ts e hkind _ ih =>
    intro n hn hheight
    show Takes n (· ≠ .dot) (operandsAt n) _ _
    have hheights := hheight
    rw [Expr.height] at hheights
    have hoperand : Takes (n + 1) (· ≠ .dot) (operandsAt (n + 1)) ts ⟨e, e.height⟩ :=
      ih (n + 1) (by omega) (by omega)
    have hinside := hoperand.nested (by omega) minus.span
    rw [operandsAt_succ] at hinside
    rw [operandsAt_eq (by omega)]
    refine .peek rfl ?_
    rw [hkind]
    refine takes_next.andThen ?_
    have hnegate : Takes n (· ≠ .dot) (ofExcept (Operand.negate minus.span ⟨e, e.height⟩)) []
        ⟨.negate e (minus.span.merge e.span),
          (Expr.negate e (minus.span.merge e.span)).height⟩ := by
      rw [negate_ok hheight]
      exact takes_pure
    exact hinside.last hnegate
  | unary _ ih =>
    intro n hn hheight
    have hfirst : Takes n (· ≠ .dot) (operandsAt n) _ _ := ih n hn hheight
    exact hfirst.gathers
  | @times d j ts us o op l r _ ho _ ihl ihr =>
    intro n hn hheight
    have hheights := hheight
    simp only [Expr.height] at hheights
    have hl : Gathers n (· ≠ .dot) multiplicative? (operandsAt n) ts ⟨l, l.height⟩ :=
      ihl n (by omega) (by omega)
    have hr : Takes n (· ≠ .dot) (operandsAt n) us ⟨r, r.height⟩ := ihr n (by omega) (by omega)
    have hop := multiplicative?_eq_some.2 ho
    exact hl.next hop (ne_dot_of_multiplicative hop) hr (binary_ok hheight)
  | term _ ih =>
    intro n hn hheight
    have hfirst : Gathers n (· ≠ .dot) multiplicative? (operandsAt n) _ _ := ih n hn hheight
    exact hfirst.takes.gathers
  | @plus d j ts us o op l r _ ho _ ihl ihr =>
    intro n hn hheight
    have hheights := hheight
    simp only [Expr.height] at hheights
    have hl : Gathers n afterTerm additive? (joined multiplicative? (operandsAt n)) ts
        ⟨l, l.height⟩ :=
      ihl n (by omega) (by omega)
    have hr : Gathers n (· ≠ .dot) multiplicative? (operandsAt n) us ⟨r, r.height⟩ :=
      ihr n (by omega) (by omega)
    have hop := additive?_eq_some.2 ho
    exact hl.next hop (afterTerm_of_additive hop) hr.takes (binary_ok hheight)

/-- The bound of the reader leaves room for as many levels as may be open. -/
theorem takes_expression {d : Nat} {e : Expr} (h : ExprOf .expr d ts e) (hd : d ≤ maxLevels)
    (hheight : e.height ≤ maxLevels) : Takes 0 afterExpr expression ts ⟨e, e.height⟩ :=
  (takes_of_exprOf h 0 (by omega) hheight).sum

/-! ## Declarations -/

theorem takes_field {f : FieldDecl} (h : FieldOf ts f) : Takes n anything field ts f := by
  cases h with
  | @field x colon semicolon ts p hx hcolon hp hsemicolon =>
    have hafter : semicolon.kind ≠ .dot := by
      rw [hsemicolon]
      decide
    exact (takes_ident hx).andThen ((takes_expect hcolon).andThen
      ((takes_path hp).bind hafter ((takes_expect hsemicolon).andThen takes_pure)))

/-- All fields, if the bound leaves room for a token of each. -/
theorem fieldsUpTo_facing {fs : List FieldDecl} {u : Token} {us : List Token}
    (hu : u.kind = .rightBrace) (h : Many FieldOf ts fs) :
    ∀ {bound : List Piece}, ts.length ≤ bound.length →
      fieldsUpTo bound (facing n (ts ++ u :: us)) = (fs, facing n (u :: us)) := by
  induction h with
  | nil =>
    intro bound _
    cases bound with
    | nil => rfl
    | cons p bound => simp [fieldsUpTo, facing, hu]
  | @cons ts vs f fs hf _ ih =>
    intro bound hlength
    obtain ⟨x, ws, rfl, hx⟩ := hf.head
    cases bound with
    | nil => cases hlength
    | cons p bound =>
      simp only [List.length_append, List.length_cons] at hlength
      have hne : vs ++ u :: us ≠ [] := by simp
      have hstep := (takes_field (n := n) hf).apply hne
      have hrest : vs.length ≤ bound.length := by omega
      rw [← List.append_assoc] at hstep
      have hgo : ¬ ((facing n (x :: ws ++ vs ++ u :: us)).current.kind = .rightBrace ∨
          (facing n (x :: ws ++ vs ++ u :: us)).current.kind = .eof) := by
        simp [facing, hx]
      simp only [fieldsUpTo, hgo, if_false, hstep, ih hrest]

theorem takes_fields {fs : List FieldDecl} (h : Many FieldOf ts fs) :
    Takes n (· = .rightBrace) fields ts fs := by
  intro u us hu
  have hlength : ts.length ≤ (facing n (ts ++ u :: us)).rest.length := by
    rw [length_rest_facing]
    exact Nat.le_add_right _ _
  simp only [fields, fieldsUpTo_facing hu h hlength]

/-- No modifier comes a second time, so none is reported. -/
theorem modifiersUpTo_facing {ms : List Modifiers} {u : Token} {us : List Token}
    (hu : modifier? u.kind = none) (h : Many ModifierOf ts ms) :
    ∀ {bound : List Piece} {seen : List Modifiers}, ts.length ≤ bound.length →
      (∀ m ∈ seen, m = .sealed ∨ m = .abstract) → (seen ++ ms).Nodup →
      modifiersUpTo bound (unionOf seen) (facing n (ts ++ u :: us)) =
        (unionOf (seen ++ ms), facing n (u :: us)) := by
  induction h with
  | nil =>
    intro bound seen _ _ _
    rw [List.append_nil]
    cases bound with
    | nil => rfl
    | cons p bound => simp [modifiersUpTo, facing, hu]
  | @cons ts vs m ms hm _ ih =>
    intro bound seen hlength hseen hnodup
    obtain ⟨t, rfl, ht⟩ := hm.token
    cases bound with
    | nil => cases hlength
    | cons p bound =>
      simp only [List.length_append, List.length_cons, List.length_nil] at hlength
      have hnew : m ∉ seen := by
        intro hmem
        exact (List.nodup_append.1 hnodup).2.2 m hmem m List.mem_cons_self rfl
      have hhas := Bool.eq_false_iff.2 (mt (has_unionOf hm.cases hseen).1 hnew)
      have hbump : (facing n (t :: (vs ++ u :: us))).bump = facing n (vs ++ u :: us) :=
        bump_facing (by simp)
      have hshorter : vs.length ≤ bound.length := by omega
      have hrest := ih hshorter (forall_mem_concat hseen hm.cases) (by simpa using hnodup)
      rw [List.append_assoc, List.singleton_append, unionOf_concat] at hrest
      have hcurrent : modifier? (facing n (t :: (vs ++ u :: us))).current.kind = some m := ht
      rw [List.append_assoc, List.singleton_append, modifiersUpTo]
      simp only [hcurrent, hhas, Bool.false_eq_true, if_false, hbump, hrest]

theorem takes_modifiers {ms : List Modifiers} (h : Many ModifierOf ts ms) (hnodup : ms.Nodup) :
    Takes n (fun kind => modifier? kind = none) modifiers ts (unionOf ms) := by
  intro u us hu
  have hlength : ts.length ≤ (facing n (ts ++ u :: us)).rest.length := by
    rw [length_rest_facing]
    exact Nat.le_add_right _ _
  have hnone : ∀ m ∈ ([] : List Modifiers), m = .sealed ∨ m = .abstract := nofun
  have hall : modifiersUpTo (facing n (ts ++ u :: us)).rest .empty (facing n (ts ++ u :: us)) =
      (unionOf ([] ++ ms), facing n (u :: us)) :=
    modifiersUpTo_facing hu h hlength hnone hnodup
  simp only [modifiers, hall, List.nil_append]

theorem takes_typeDecl {t : TypeDecl} (h : TypeOf ts t) : Takes n anything typeDecl ts t := by
  cases h with
  | @type first key x opening closing ms bs fs mods base fieldDecls hms hnodup hfirst hkey hx hbase
      hopening hfs hclosing =>
    have hbody (base : Option Path) : Takes n anything (do
        let _ ← expect .leftBrace
        let fs ← fields
        let last ← expect .rightBrace
        return (⟨unionOf mods, identOf x, base, fs, first.span.merge last.span⟩ : TypeDecl))
        (opening :: (fs ++ [closing]))
        ⟨unionOf mods, identOf x, base, fieldDecls, first.span.merge closing.span⟩ := by
      exact (takes_expect hopening).andThen
        ((takes_fields hfs).bind hclosing ((takes_expect hclosing).andThen takes_pure))
    have hafterPath : opening.kind ≠ .dot := by
      rw [hopening]
      decide
    have hafterName : opening.kind ≠ .keyExtends := by
      rw [hopening]
      decide
    have hafterModifiers : modifier? key.kind = none := by
      rw [hkey]
      rfl
    have hhead : (ms ++ key :: x :: (bs ++ opening :: (fs ++ [closing]))).head? = some first := by
      cases ms with
      | nil => exact hfirst
      | cons m ms => exact hfirst
    refine .peek hhead ((takes_modifiers hms hnodup).bind hafterModifiers ?_)
    rw [← List.singleton_append, ← List.singleton_append (x := x)]
    refine (takes_expect hkey).andThen ((takes_ident hx).andThen ?_)
    cases hbase with
    | none => exact takes_skip_nothing.bind hafterName (hbody none)
    | @«extends» e ps p he hp =>
      rw [← List.singleton_append, List.append_assoc]
      exact (takes_skip he).andThen ((takes_path hp).map.bind hafterPath (hbody (some p)))

theorem takes_constDecl {c : ConstDecl} (h : ConstOf ts c) : Takes 0 anything constDecl ts c := by
  cases h with
  | @const key x equal semicolon d ts e hkey hx hequal he hd hheight hsemicolon =>
    have hafter : afterExpr semicolon.kind := by
      rw [hsemicolon]
      exact ⟨⟨by decide, rfl⟩, rfl⟩
    exact takes_next.andThen ((takes_ident hx).andThen ((takes_expect hequal).andThen
      ((takes_expression he hd hheight).bind hafter
        ((takes_expect hsemicolon).andThen takes_pure))))

theorem takes_item {i : Item} (h : ItemOf ts i) : Takes 0 anything item ts i := by
  cases h with
  | type h =>
    have htype := (takes_typeDecl (n := 0) h).map (f := Item.type)
    obtain ⟨first, us, rfl, hfirst⟩ := h.head
    refine .peek rfl ?_
    rcases hfirst with hkind | hkind | hkind
    · rw [hkind]
      exact htype
    · rw [hkind]
      exact htype
    · rw [hkind]
      exact htype
  | const h =>
    have hconst := (takes_constDecl h).map (f := Item.const)
    cases h with
    | const hkey =>
      refine .peek rfl ?_
      rw [hkey]
      exact hconst

/-! ## Units -/

/-- All declarations, if the bound leaves room for a token of each. -/
theorem itemsUpTo_facing {items : List Item} (u : Token) (us : List Token) (hu : u.kind = .eof)
    (h : Many ItemOf ts items) : ∀ {bound : List Piece}, ts.length ≤ bound.length →
      itemsUpTo bound (facing 0 (ts ++ u :: us)) = (items, facing 0 (u :: us)) := by
  induction h with
  | nil =>
    intro bound _
    cases bound with
    | nil => rfl
    | cons p bound => simp [itemsUpTo, facing, hu]
  | @cons ts vs i items hi _ ih =>
    intro bound hlength
    obtain ⟨first, ws, rfl, hfirst⟩ := hi.head
    cases bound with
    | nil => cases hlength
    | cons p bound =>
      simp only [List.length_append, List.length_cons] at hlength
      have hne : vs ++ u :: us ≠ [] := by simp
      have hstep := (takes_item hi).apply hne
      have hrest : vs.length ≤ bound.length := by omega
      rw [← List.append_assoc] at hstep
      have hgo : (facing 0 (first :: ws ++ vs ++ u :: us)).current.kind ≠ .eof := hfirst
      simp only [itemsUpTo, hgo, if_false, hstep, ih hrest]

end Reader

open State in
theorem ofPieces_of_scriptOf {ts : List Token} {items : List Item} (h : ScriptOf ts items)
    (line col : UInt32) : ∃ span,
      ofPieces ((ts ++ [Token.endAt line col]).map .token) = (⟨items, span⟩, []) := by
  have hlength : ts.length ≤ (facing 0 (ts ++ [Token.endAt line col])).rest.length := by
    rw [length_rest_facing]
    exact Nat.le_add_right _ _
  have hitems := Reader.itemsUpTo_facing (.endAt line col) [] rfl h hlength
  refine ⟨(facing 0 (ts ++ [Token.endAt line col])).current.span.merge
    (Token.endAt line col).span, ?_⟩
  simp only [ofPieces, ofPieces_tokens, hitems]
  rfl

theorem ScriptOf.unique {ts : List Token} {items items' : List Item} (h : ScriptOf ts items)
    (h' : ScriptOf ts items') : items = items' := by
  obtain ⟨span, heq⟩ := ofPieces_of_scriptOf h 1 1
  obtain ⟨span', heq'⟩ := ofPieces_of_scriptOf h' 1 1
  rw [heq] at heq'
  simp only [Prod.mk.injEq, Script.mk.injEq] at heq'
  exact heq'.1.1

/--
A source that is made of tokens is read without an error exactly if they are a script, and then
the declarations are those of the script, which has no other derivation.
-/
theorem parse?_iff_scriptOf {source : String} {tokens : List Token}
    (hlex : Token.ofSource source = tokens.map .token) :
    ∃ ts line col, tokens = ts ++ [.endAt line col] ∧
      (∀ items, (∃ span, parse? source = .ok ⟨items, span⟩) ↔ ScriptOf ts items) ∧
      ∀ items items', ScriptOf ts items → ScriptOf ts items' → items = items' := by
  have hends := Token.endsOnce_ofSource source
  rw [hlex] at hends
  obtain ⟨ts, line, col, rfl⟩ := hends.tokens
  refine ⟨ts, line, col, rfl, fun items => ⟨?_, ?_⟩, fun _ _ => ScriptOf.unique⟩
  · rintro ⟨span, h⟩
    obtain ⟨ts', line', col', htokens, hscript⟩ := derives_of_parse? h
    have hsame := (List.map_inj_right fun _ _ => Piece.token.inj).1 (hlex.symm.trans htokens)
    obtain ⟨rfl, -⟩ := List.append_inj' hsame rfl
    exact hscript
  · intro hscript
    obtain ⟨span, h⟩ := ofPieces_of_scriptOf hscript line col
    refine ⟨span, ?_⟩
    simp only [parse?, parse, hlex, h]

/-! ### Operators of both levels and a unary minus -/

def difference : String := "const X = 1 - 2 - 3 * -4;"

def differenceTokens : List Token :=
  [⟨.keyConst, "const", ⟨1, 1, 5⟩⟩, ⟨.identifier, "X", ⟨1, 7, 1⟩⟩, ⟨.equal, "=", ⟨1, 9, 1⟩⟩,
    ⟨.intLiteral, "1", ⟨1, 11, 1⟩⟩, ⟨.minus, "-", ⟨1, 13, 1⟩⟩, ⟨.intLiteral, "2", ⟨1, 15, 1⟩⟩,
    ⟨.minus, "-", ⟨1, 17, 1⟩⟩, ⟨.intLiteral, "3", ⟨1, 19, 1⟩⟩, ⟨.star, "*", ⟨1, 21, 1⟩⟩,
    ⟨.minus, "-", ⟨1, 23, 1⟩⟩, ⟨.intLiteral, "4", ⟨1, 24, 1⟩⟩, ⟨.semicolon, ";", ⟨1, 25, 1⟩⟩]

def differenceConst : ConstDecl :=
  ⟨⟨"X", ⟨1, 7, 1⟩⟩,
    .binary .sub
      (.binary .sub (.literal (.int 1) ⟨1, 11, 1⟩) (.literal (.int 2) ⟨1, 15, 1⟩) ⟨1, 11, 5⟩)
      (.binary .mul (.literal (.int 3) ⟨1, 19, 1⟩)
        (.negate (.literal (.int 4) ⟨1, 24, 1⟩) ⟨1, 23, 2⟩) ⟨1, 19, 6⟩) ⟨1, 11, 14⟩,
    ⟨1, 1, 25⟩⟩

theorem parse?_iff_scriptOf_difference :
    Token.ofSource difference = (differenceTokens ++ [Token.endAt 1 26]).map .token ∧
      ScriptOf differenceTokens [.const differenceConst] ∧
      ∀ items, ScriptOf differenceTokens items → items = [.const differenceConst] := by
  have hlex : Token.ofSource difference = (differenceTokens ++ [Token.endAt 1 26]).map .token := by
    decide +kernel
  have hread : parse difference = (⟨[.const differenceConst], ⟨1, 1, 25⟩⟩, []) := by
    decide +kernel
  have hparse : parse? difference = .ok ⟨[.const differenceConst], ⟨1, 1, 25⟩⟩ := by
    simp only [parse?, hread]
  obtain ⟨ts, line, col, htokens, hiff, hunique⟩ := parse?_iff_scriptOf hlex
  obtain ⟨rfl, -⟩ := List.append_inj' htokens rfl
  have hscript := (hiff _).1 ⟨_, hparse⟩
  exact ⟨hlex, hscript, fun items h => hunique items _ h hscript⟩

end Script
end Linkage
