import Linkage.Script.Parse

/-!
# Linkage.Proofs.Script.Stepwise

Relations between the state before a reading and the state after it.

A reader only moves past tokens, reports errors, and reads one level further inside. What each of
these keeps, every reader keeps, whether it gives a value or an error.

* `Stepwise R` — the steps of a reading are in `R`, and so is one after the other.
* `Carries R r` — so is everything that the reader `r` does.
* `carries_chain`, `carries_unary`, `carries_sum` — the readers of expressions.
-/

namespace Linkage
namespace Script

/-- Where the reader stopped, with a value or with an error. -/
def Reply.state {α : Type} : Reply α → State
  | .ok _ t => t
  | .error _ t => t

structure Stepwise (R : State → State → Prop) : Prop where
  refl (s : State) : R s s
  trans {s t u : State} : R s t → R t u → R s u
  bump (s : State) : R s s.bump
  report (s : State) (e : ParseError) : R s (s.report e)
  nested {s t : State} : R { s with nesting := s.nesting + 1 } t →
    R s { t with nesting := t.nesting - 1 }

namespace Reader

variable {α β : Type} {R : State → State → Prop}

def Carries (R : State → State → Prop) (r : Reader α) : Prop := ∀ s, R s (r s).state

theorem state_map (f : α → β) (r : Reader α) (s : State) : ((f <$> r) s).state = (r s).state := by
  change (Reader.bind r (fun a => Reader.pure (f a)) s).state = (r s).state
  unfold Reader.bind
  cases r s with
  | ok a t => rfl
  | error e t => rfl

section

variable (hR : Stepwise R)

include hR

theorem carries_pure (a : α) : Carries R (pure a) := hR.refl

theorem carries_bind {r : Reader α} {f : α → Reader β} (hr : Carries R r)
    (hf : ∀ a, Carries R (f a)) : Carries R (r >>= f) := by
  intro s
  change R s (Reader.bind r f s).state
  have hs := hr s
  unfold Reader.bind
  cases h : r s with
  | ok a t =>
    rw [h] at hs
    exact hR.trans hs (hf a t)
  | error e t =>
    rw [h] at hs
    exact hs

theorem carries_current : Carries R current := hR.refl

theorem carries_next : Carries R next := hR.bump

theorem carries_refuse (cause : Token → ParseError.Cause) : Carries R (refuse (α := α) cause) :=
  hR.refl

theorem carries_skip (kind : Token.Kind) : Carries R (skip kind) := by
  intro s
  unfold skip
  split
  · exact hR.bump s
  · exact hR.refl s

theorem carries_expect (kind : Token.Kind) : Carries R (expect kind) := by
  intro s
  unfold expect
  split
  · exact hR.bump s
  · exact hR.refl s

theorem carries_ident : Carries R ident := by
  intro s
  unfold ident
  split
  · exact hR.bump s
  · exact hR.refl s

theorem carries_path : Carries R path := by
  refine carries_bind hR (carries_ident hR) fun first => ?_
  refine carries_bind hR (carries_skip hR _) fun qualified => ?_
  split
  · exact carries_bind hR (carries_ident hR) fun _ => carries_pure hR _
  · exact carries_pure hR _

theorem carries_ofExcept (x : Except ParseError α) : Carries R (ofExcept x) := by
  cases x with
  | ok a => exact hR.refl
  | error e => exact hR.refl

/-! ## Expressions -/

theorem carries_leaf (v : Value) : Carries R (leaf v) :=
  carries_bind hR (carries_next hR) fun _ => carries_pure hR _

theorem carries_atom : Carries R atom := by
  refine carries_bind hR (carries_current hR) fun t => ?_
  split
  · exact carries_leaf hR _
  · exact carries_leaf hR _
  · exact carries_leaf hR _
  · exact carries_leaf hR _
  · refine carries_bind hR (carries_next hR) fun u => ?_
    split
    · exact carries_pure hR _
    · exact hR.refl
  · exact carries_bind hR (carries_path hR) fun _ => carries_pure hR _
  · exact carries_refuse hR _

/-- The level that was entered is left again, on the way out of an error as well. -/
theorem carries_nested {inside : Reader α} (h : Carries R inside) (opening : Span) :
    Carries R (nested opening inside) := by
  intro s
  have hs := h { s with nesting := s.nesting + 1 }
  unfold nested
  split
  · exact hR.refl s
  · cases hin : inside { s with nesting := s.nesting + 1 } with
    | ok a t =>
      rw [hin] at hs
      exact hR.nested hs
    | error e t =>
      rw [hin] at hs
      exact hR.nested hs

theorem carries_chain {operator? : Token.Kind → Option Operator} {operand : Reader Operand}
    (h : Carries R operand) (bound : List Piece) :
    ∀ lhs, Carries R (chain operator? operand bound lhs) := by
  induction bound with
  | nil => exact carries_pure hR
  | cons _ bound ih =>
    intro lhs
    refine carries_bind hR (carries_current hR) fun t => ?_
    split
    · exact carries_pure hR _
    · refine carries_bind hR (carries_next hR) fun _ => carries_bind hR h fun rhs => ?_
      exact carries_bind hR (carries_ofExcept hR _) ih

theorem carries_joined {operator? : Token.Kind → Option Operator} {operand : Reader Operand}
    (h : Carries R operand) : Carries R (joined operator? operand) :=
  carries_bind hR h fun lhs s => carries_chain hR h s.rest lhs s

theorem carries_sum {operand : Reader Operand} (h : Carries R operand) : Carries R (sum operand) :=
  carries_joined hR (carries_joined hR h)

theorem carries_unary (bound : Nat) : Carries R (unary bound) := by
  induction bound with
  | zero => exact carries_bind hR (carries_current hR) fun _ => carries_ofExcept hR _
  | succ bound ih =>
    refine carries_bind hR (carries_current hR) fun t => ?_
    split
    · refine carries_bind hR (carries_next hR) fun minus => ?_
      exact carries_bind hR (carries_nested hR ih _) fun _ => carries_ofExcept hR _
    · refine carries_bind hR (carries_next hR) fun paren => ?_
      refine carries_bind hR (carries_nested hR (carries_sum hR ih) _) fun inside => ?_
      exact carries_bind hR (carries_expect hR _) fun _ => carries_pure hR _
    · exact carries_atom hR

theorem carries_expression : Carries R expression := carries_sum hR (carries_unary hR _)

end

end Reader

end Script
end Linkage
