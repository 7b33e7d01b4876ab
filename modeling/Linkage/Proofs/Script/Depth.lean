import Linkage.Proofs.Script.Grammar
import Linkage.Proofs.Script.Sound
import Linkage.Proofs.Script.Stepwise

/-!
# Linkage.Proofs.Script.Depth

What the readers of expressions keep count of: the levels that are open, and the height of what was
read.

`unary` takes one from a bound where it calls itself. No reading of an expression uses that bound
up, `nested` refuses before, so there are four readers that call each other like the nonterminals
of the grammar do.

* `reader level` — the reader of each nonterminal, and `call`, what it does when it is called.
* `Agree n r r'` — two readers are the same with `n` levels open.
* `unary_agree` — bounds that are large enough make no difference.
* `reader_depth` — no reader changes the number of open levels, and the height that it gives is
  that of the tree.
-/

namespace Linkage
namespace Script

/-- As many levels are open after the reading as before it. -/
def State.Balanced (s t : State) : Prop := t.nesting = s.nesting

theorem State.seek_balanced (s : State) (pieces : List Piece) : s.Balanced (s.seek pieces) := by
  fun_induction State.seek s pieces with
  | case1 => rfl
  | case2 s e pieces ih => exact ih
  | case3 => rfl

theorem State.stepwise_balanced : Stepwise State.Balanced where
  refl _ := rfl
  trans hst htu := htu.trans hst
  bump s := s.seek_balanced s.rest
  report _ _ := rfl
  nested h := by
    unfold State.Balanced at h ⊢
    exact Nat.sub_eq_of_eq_add h

namespace Reader

variable {α β : Type} {n : Nat}

/-! ## The four readers -/

/-- What comes after a unary minus, negated. -/
def negation (operand : Reader Operand) : Reader Operand := do
  let minus ← next
  let operand ← nested minus.span operand
  ofExcept (operand.negate minus.span)

/-- An expression in parentheses, a literal or a path. -/
def primary (inside : Reader Operand) : Reader Operand := do
  let t ← current
  match t.kind with
  | .leftParen =>
    let paren ← next
    let inside ← nested paren.span inside
    let _ ← expect .rightParen
    return inside
  | _ => atom

def reader : Level → Reader Operand
  | .expr => expression
  | .term => joined multiplicative? (unary (maxLevels + 1))
  | .unary => unary (maxLevels + 1)
  | .primary => primary (sum (unary maxLevels))

/-- What the reader of a nonterminal does, with the readers that it calls as a parameter. -/
def call (readers : Level → Reader Operand) : Level → Reader Operand
  | .expr => joined additive? (readers .term)
  | .term => joined multiplicative? (readers .unary)
  | .unary => do
    let t ← current
    match t.kind with
    | .minus => negation (readers .unary)
    | _ => readers .primary
  | .primary => primary (readers .expr)

theorem current_bind (f : Token → Reader α) (s : State) :
    (current >>= f) s = f s.current s := rfl

theorem unary_succ (bound : Nat) (s : State) :
    unary (bound + 1) s =
      if s.current.kind = .minus then negation (unary bound) s
      else primary (sum (unary bound)) s := by
  rw [unary, primary, current_bind, current_bind]
  cases s.current.kind <;> rfl

theorem call_unary (readers : Level → Reader Operand) (s : State) :
    call readers .unary s =
      if s.current.kind = .minus then negation (readers .unary) s else readers .primary s := by
  rw [call, current_bind]
  cases s.current.kind <;> rfl

/-! ## Bounds -/

def Agree (n : Nat) (r r' : Reader α) : Prop := ∀ s, s.nesting = n → r s = r' s

theorem Agree.refl (r : Reader α) : Agree n r r := fun _ _ => rfl

theorem Agree.bind {r r' : Reader α} {f g : α → Reader β} (hr : Agree n r r')
    (hlevel : Carries State.Balanced r) (hf : ∀ a, Agree n (f a) (g a)) :
    Agree n (r >>= f) (r' >>= g) := by
  intro s hs
  change Reader.bind r f s = Reader.bind r' g s
  have ht := hlevel s
  unfold Reader.bind
  rw [← hr s hs]
  cases h : r s with
  | ok a t =>
    rw [h] at ht
    exact hf a t (ht.trans hs)
  | error e t => rfl

theorem Agree.after {r : Reader α} {f g : α → Reader β} (hlevel : Carries State.Balanced r)
    (hf : ∀ a, Agree n (f a) (g a)) : Agree n (r >>= f) (r >>= g) :=
  (Agree.refl r).bind hlevel hf

theorem Agree.nested {r r' : Reader α} (h : n < maxLevels → Agree (n + 1) r r')
    (opening : Span) : Agree n (nested opening r) (nested opening r') := by
  intro s hs
  unfold Reader.nested
  split
  · rfl
  · rename_i hlow
    rw [h (hs ▸ Nat.lt_of_not_le hlow) { s with nesting := s.nesting + 1 } (congrArg (· + 1) hs)]

theorem Agree.chain {operator? : Token.Kind → Option Operator} {r r' : Reader Operand}
    (h : Agree n r r') (hlevel : Carries State.Balanced r) (bound : List Piece) :
    ∀ lhs, Agree n (chain operator? r bound lhs) (chain operator? r' bound lhs) := by
  have hbalanced := State.stepwise_balanced
  induction bound with
  | nil => exact fun lhs => .refl _
  | cons _ bound ih =>
    intro lhs
    refine Agree.after (carries_current hbalanced) fun t => ?_
    split
    · exact .refl _
    · refine Agree.after (carries_next hbalanced) fun _ => ?_
      refine h.bind hlevel fun rhs => ?_
      exact Agree.after (carries_ofExcept hbalanced _) ih

theorem Agree.joined {operator? : Token.Kind → Option Operator} {r r' : Reader Operand}
    (h : Agree n r r') (hlevel : Carries State.Balanced r) :
    Agree n (joined operator? r) (joined operator? r') :=
  h.bind hlevel fun lhs s hs => h.chain hlevel s.rest lhs s hs

theorem Agree.sum {r r' : Reader Operand} (h : Agree n r r')
    (hlevel : Carries State.Balanced r) : Agree n (sum r) (sum r') :=
  (h.joined hlevel).joined (carries_joined State.stepwise_balanced hlevel)

theorem Agree.negation {r r' : Reader Operand} (h : n < maxLevels → Agree (n + 1) r r')
    (hlevel : Carries State.Balanced r) : Agree n (negation r) (negation r') := by
  have hbalanced := State.stepwise_balanced
  refine Agree.after (carries_next hbalanced) fun minus => ?_
  exact (Agree.nested h _).bind (carries_nested hbalanced hlevel _) fun _ => .refl _

theorem Agree.primary {r r' : Reader Operand} (h : n < maxLevels → Agree (n + 1) r r')
    (hlevel : Carries State.Balanced r) : Agree n (primary r) (primary r') := by
  have hbalanced := State.stepwise_balanced
  refine Agree.after (carries_current hbalanced) fun t => ?_
  split
  · refine Agree.after (carries_next hbalanced) fun paren => ?_
    exact (Agree.nested h _).bind (carries_nested hbalanced hlevel _) fun _ => .refl _
  · exact .refl _

/--
With `n` levels open at most `maxLevels - n` more can be entered, and a bound above that number
makes no difference. By induction on one of the bounds, which is one less where one more level is
open.
-/
theorem unary_agree : ∀ {b c n : Nat}, n ≤ maxLevels → maxLevels < b + n → maxLevels < c + n →
    Agree n (unary b) (unary c)
  | 0, _, _, _, hb, _ => by omega
  | _, 0, _, _, _, hc => by omega
  | b + 1, c + 1, n, _, hb, hc => by
    have hinside : n < maxLevels → Agree (n + 1) (unary b) (unary c) := fun hn =>
      unary_agree hn (by omega) (by omega)
    have hlevel := carries_unary State.stepwise_balanced b
    intro s hs
    rw [unary_succ, unary_succ]
    -- Both calls of `unary` are behind `nested`, which is what makes the bounds large enough there.
    split
    · exact Agree.negation hinside hlevel s hs
    · exact Agree.primary (fun hn => (hinside hn).sum hlevel)
        (carries_sum State.stepwise_balanced hlevel) s hs

/-- The readers call each other: no bound comes into it. -/
theorem reader_eq_call (level : Level) (s : State) : reader level s = call reader level s := by
  have hinside {n : Nat} (hn : n < maxLevels) :
      Agree (n + 1) (unary maxLevels) (unary (maxLevels + 1)) :=
    unary_agree hn (by omega) (by omega)
  have hlevel := carries_unary State.stepwise_balanced maxLevels
  cases level with
  | expr => rfl
  | term => rfl
  | unary =>
    rw [call_unary]
    change unary (maxLevels + 1) s = _
    rw [unary_succ]
    split
    · exact Agree.negation hinside hlevel s rfl
    · rfl
  | primary =>
    exact Agree.primary (fun hn => (hinside hn).sum hlevel)
      (carries_sum State.stepwise_balanced hlevel) s rfl

/-! ## Levels and heights -/

theorem carries_reader (level : Level) : Carries State.Balanced (reader level) := by
  have hbalanced := State.stepwise_balanced
  cases level with
  | expr => exact carries_expression hbalanced
  | term => exact carries_joined hbalanced (carries_unary hbalanced _)
  | unary => exact carries_unary hbalanced _
  | primary =>
    refine carries_bind hbalanced (carries_current hbalanced) fun t => ?_
    split
    · refine carries_bind hbalanced (carries_next hbalanced) fun paren => ?_
      have hinside := carries_sum hbalanced (carries_unary hbalanced maxLevels)
      refine carries_bind hbalanced (carries_nested hbalanced hinside _) fun inside => ?_
      exact carries_bind hbalanced (carries_expect hbalanced _) fun _ => carries_pure hbalanced _
    · exact carries_atom hbalanced

theorem yields_reader (level : Level) : Yields (reader level) Operand.Sound := by
  cases level with
  | expr => exact yields_expression
  | term => exact yields_joined (yields_unary _)
  | unary => exact yields_unary _
  | primary =>
    refine .after fun t => ?_
    split
    · refine .after fun paren => ((yields_sum (yields_unary _)).nested paren.span).bind ?_
      exact fun inside hinside => .after fun _ => yields_pure hinside
    · exact yields_atom

theorem reader_depth (level : Level) (s : State) :
    reader level s = call reader level s ∧ (reader level s).state.nesting = s.nesting ∧
      ∀ o t, reader level s = .ok o t → o.height = o.expr.height ∧ o.height ≤ maxLevels := by
  refine ⟨reader_eq_call level s, carries_reader level s, fun o t ho => ?_⟩
  have hsound := yields_reader level s o t ho
  exact ⟨hsound.height.symm, hsound.bounded⟩

/-- `-x` inside of this many parentheses and unary minuses. -/
def minusAt (nesting : Nat) : State where
  current := ⟨.minus, "-", ⟨1, 1, 1⟩⟩
  rest := [.token ⟨.identifier, "x", ⟨1, 2, 1⟩⟩, .token (.endAt 1 3)]
  nesting := nesting
  errors := #[]

/-- The minus is the last level that can be entered, or one too many. -/
theorem reader_depth_minusAt :
    (∃ o t, reader .unary (minusAt 255) = .ok o t ∧ o.expr.height = 2 ∧ t.nesting = 255) ∧
      ∃ e t, reader .unary (minusAt 256) = .error e t ∧ e.cause = .tooManyLevels ∧
        t.nesting = 256 := by
  obtain ⟨-, hnesting, hheight⟩ := reader_depth .unary (minusAt 255)
  obtain ⟨-, hnesting', -⟩ := reader_depth .unary (minusAt 256)
  exact ⟨⟨_, _, rfl, (hheight _ _ rfl).1.symm, hnesting⟩, _, _, rfl, rfl, hnesting'⟩

end Reader

end Script
end Linkage
