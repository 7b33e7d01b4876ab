import Linkage.Script.Parse

/-!
# Linkage.Proofs.Script.Sound

What every declaration that is read satisfies, whatever the text it is read from.

* `Yields r P` — all that the reader `r` can give satisfies `P`.
* `Operand.Sound` — the height that an operand carries with it is the height of its tree, and no
  more than `maxLevels`.
* `sound_of_mem_parse` — constant expressions are as high as their operands may be, and modifiers
  have no bits but those of `sealed` and `abstract`.
-/

namespace Linkage
namespace Script

/-! ## Results -/

namespace Reader

variable {α β : Type}

def Yields (r : Reader α) (P : α → Prop) : Prop := ∀ s a t, r s = .ok a t → P a

theorem yields_true (r : Reader α) : Yields r fun _ => True := fun _ _ _ _ => trivial

theorem yields_pure {P : α → Prop} {a : α} (h : P a) : Yields (pure a) P := by
  intro s b t hb
  cases hb
  exact h

theorem Yields.bind {r : Reader α} {f : α → Reader β} {P : α → Prop} {Q : β → Prop}
    (hr : Yields r P) (hf : ∀ a, P a → Yields (f a) Q) : Yields (r >>= f) Q := by
  intro s b t hb
  change Reader.bind r f s = .ok b t at hb
  unfold Reader.bind at hb
  split at hb
  · cases hb
  · rename_i a u ha
    exact hf a (hr s a u ha) u b t hb

theorem Yields.after {r : Reader α} {f : α → Reader β} {Q : β → Prop}
    (hf : ∀ a, Yields (f a) Q) : Yields (r >>= f) Q :=
  (yields_true r).bind fun a _ => hf a

theorem Yields.map {r : Reader α} {f : α → β} {P : α → Prop} {Q : β → Prop}
    (hr : Yields r P) (hf : ∀ a, P a → Q (f a)) : Yields (f <$> r) Q :=
  hr.bind fun a ha => yields_pure (hf a ha)

theorem yields_ofExcept {x : Except ParseError α} {P : α → Prop} (h : ∀ a, x = .ok a → P a) :
    Yields (ofExcept x) P := by
  intro s a t ha
  cases x with
  | error e => cases ha
  | ok b =>
    cases ha
    exact h a rfl

theorem yields_refuse (cause : Token → ParseError.Cause) (P : α → Prop) :
    Yields (refuse cause) P := fun _ _ _ h => nomatch h

theorem Yields.nested {r : Reader α} {P : α → Prop} (hr : Yields r P) (opening : Span) :
    Yields (nested opening r) P := by
  intro s a t ha
  unfold Reader.nested at ha
  split at ha
  · cases ha
  · split at ha
    · rename_i b u hb
      cases ha
      exact hr _ _ _ hb
    · cases ha

end Reader

/-! ## Heights -/

structure Operand.Sound (o : Operand) : Prop where
  height : o.expr.height = o.height
  bounded : o.height ≤ maxLevels

theorem Operand.Sound.negate {o p : Operand} {minus : Span} (ho : o.Sound)
    (h : o.negate minus = .ok p) : p.Sound := by
  unfold Operand.negate at h
  dsimp only at h
  split at h
  · cases h
  · rename_i hlow
    cases h
    exact ⟨congrArg (· + 1) ho.height, by dsimp only; omega⟩

theorem Operand.Sound.binary {op : Operator} {l r p : Operand} (hl : l.Sound) (hr : r.Sound)
    (h : l.binary op r = .ok p) : p.Sound := by
  unfold Operand.binary at h
  dsimp only at h
  split at h
  · cases h
  · rename_i hlow
    cases h
    refine ⟨?_, by dsimp only; omega⟩
    rw [Expr.height, hl.height, hr.height]

theorem Operand.sound_leaf {e : Expr} (h : e.height = 1) : Operand.Sound ⟨e, 1⟩ := by
  refine ⟨h, ?_⟩
  show 1 ≤ maxLevels
  decide

namespace Reader

theorem yields_leaf (v : Value) : Yields (leaf v) Operand.Sound :=
  .after fun _ => yields_pure (Operand.sound_leaf rfl)

theorem yields_atom : Yields atom Operand.Sound := by
  refine .after fun t => ?_
  split
  · exact yields_leaf _
  · exact yields_leaf _
  · exact yields_leaf _
  · exact yields_leaf _
  · refine .after fun u => ?_
    split
    · exact yields_pure (Operand.sound_leaf rfl)
    · exact fun _ _ _ h => nomatch h
  · exact .after fun _ => yields_pure (Operand.sound_leaf rfl)
  · exact yields_refuse _ _

theorem yields_chain {operator? : Token.Kind → Option Operator} {operand : Reader Operand}
    (ho : Yields operand Operand.Sound) (bound : List Piece) :
    ∀ {lhs : Operand}, lhs.Sound → Yields (chain operator? operand bound lhs) Operand.Sound := by
  induction bound with
  | nil => exact fun hl => yields_pure hl
  | cons _ bound ih =>
    intro lhs hl
    refine .after fun t => ?_
    split
    · exact yields_pure hl
    · refine .after fun _ => ho.bind fun rhs hr => ?_
      exact (yields_ofExcept fun both hb => hl.binary hr hb).bind fun both hb => ih hb

theorem yields_joined {operator? : Token.Kind → Option Operator} {operand : Reader Operand}
    (ho : Yields operand Operand.Sound) : Yields (joined operator? operand) Operand.Sound :=
  ho.bind fun _ hl s => yields_chain ho s.rest hl s

theorem yields_sum {operand : Reader Operand} (ho : Yields operand Operand.Sound) :
    Yields (sum operand) Operand.Sound :=
  yields_joined (yields_joined ho)

theorem yields_unary (bound : Nat) : Yields (unary bound) Operand.Sound := by
  induction bound with
  | zero => exact .after fun t => yields_ofExcept fun _ h => nomatch h
  | succ bound ih =>
    refine .after fun t => ?_
    split
    · refine .after fun minus => (ih.nested minus.span).bind fun o ho => ?_
      exact yields_ofExcept fun p hp => ho.negate hp
    · refine .after fun paren => ((yields_sum ih).nested paren.span).bind fun o ho => ?_
      exact .after fun _ => yields_pure ho
    · exact yields_atom

theorem yields_expression : Yields expression Operand.Sound := yields_sum (yields_unary _)

end Reader

/-! ## Declarations -/

theorem union_bits_lt {a b : Modifiers} (ha : a.bits < 4) (hb : b.bits < 4) :
    (a.union b).bits < 4 := by
  have h : a.bits.toNat ||| b.bits.toNat < 2 ^ 2 := Nat.or_lt_two_pow ha hb
  show a.bits ||| b.bits < 4
  rw [UInt8.lt_iff_toNat_lt, UInt8.toNat_or]
  exact h

/-- What the reader lets into the rest of a compile. -/
def Item.Sound : Item → Prop
  | .type t => t.modifiers.bits < 4
  | .const c => c.value.height ≤ maxLevels

namespace Reader

theorem modifiersUpTo_lt (bound : List Piece) :
    ∀ (seen : Modifiers) (s : State), seen.bits < 4 → (modifiersUpTo bound seen s).1.bits < 4 := by
  induction bound with
  | nil => exact fun _ _ h => h
  | cons _ bound ih =>
    intro seen s h
    unfold modifiersUpTo
    split
    · exact h
    · rename_i m hm
      have hlt : m.bits < 4 := by
        unfold modifier? at hm
        split at hm <;> cases hm <;> decide
      exact ih _ _ (union_bits_lt h hlt)

theorem yields_typeDecl : Yields typeDecl fun t => t.modifiers.bits < 4 := by
  have hmodifiers : Yields modifiers fun m => m.bits < 4 := by
    intro s m t h
    cases h
    exact modifiersUpTo_lt s.rest .empty s (by decide)
  refine .after fun first => hmodifiers.bind fun m hm => ?_
  refine .after fun _ => .after fun name => .after fun extends? => ?_
  split
  · exact .after fun base => .after fun _ => .after fun fields => .after fun _ => yields_pure hm
  · exact .after fun base => .after fun _ => .after fun fields => .after fun _ => yields_pure hm

theorem yields_constDecl : Yields constDecl fun c => c.value.height ≤ maxLevels := by
  refine .after fun first => .after fun name => .after fun _ => ?_
  refine yields_expression.bind fun o ho => .after fun _ => yields_pure ?_
  exact ho.height ▸ ho.bounded

theorem yields_item : Yields item Item.Sound := by
  refine .after fun t => ?_
  split
  · exact yields_constDecl.map fun _ h => h
  · exact yields_typeDecl.map fun _ h => h
  · exact yields_typeDecl.map fun _ h => h
  · exact yields_typeDecl.map fun _ h => h
  · exact .after fun found => yields_ofExcept fun _ h => nomatch h

theorem itemsUpTo_sound (bound : List Piece) :
    ∀ (s : State), ∀ i ∈ (itemsUpTo bound s).1, i.Sound := by
  induction bound with
  | nil => exact fun _ _ h => nomatch h
  | cons _ bound ih =>
    intro s i hi
    unfold itemsUpTo at hi
    split at hi
    · cases hi
    · split at hi
      · rename_i j t hj
        rcases List.mem_cons.1 hi with rfl | hi
        · exact yields_item s _ t hj
        · exact ih t i hi
      · exact ih _ i hi

end Reader

theorem sound_of_mem_parse {source : String} {i : Item} (h : i ∈ (parse source).1.items) :
    i.Sound :=
  Reader.itemsUpTo_sound _ _ i h

end Script
end Linkage
