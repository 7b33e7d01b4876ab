import Linkage.Proofs.Evaluation.Meaning
import Linkage.Proofs.Interface.Decoded

/-!
# Linkage.Proofs.Evaluation.Levels

No constant of a module that was read from an image is nested too deeply to evaluate.

The levels of an expression are counted three times: down from the limit by the reader of images,
up to the limit by the walk that gathers references before a constant is evaluated, and by
`ConstExpr.height`, which knows no limit.

* `ConstExpr.collect` — the references of an expression by such a walk, counting from one.
* `ConstExpr.collect_one` — it gives up exactly on the expressions of too great a height.
* `Evaluation.visit_tooHigh` — if a visit gives up, the walk did on a constant of a module at hand.
* `decode_sound` — what images that can be read are like, and that evaluation among modules read
  from images never gives up for the depth of a constant.
-/

namespace Linkage

/-! ## Gathering references -/

/-- The references from left to right, unless there are levels beyond the last one allowed; the
number is the level of the expression itself. -/
def ConstExpr.collect : ConstExpr → Nat → Option (List (Option String × String))
  | .literal _, level => if maxLevels < level then none else some []
  | .ref m n, level => if maxLevels < level then none else some [(m, n)]
  | .negate e, level => if maxLevels < level then none else e.collect (level + 1)
  | .binary _ l r, level =>
    if maxLevels < level then none
    else
      match l.collect (level + 1) with
      | none => none
      | some refs => (r.collect (level + 1)).map (refs ++ ·)

theorem ConstExpr.collect_of_le {e : ConstExpr} : ∀ {level : Nat},
    level + e.height ≤ maxLevels + 1 → e.collect level = some e.refs := by
  induction e with
  | literal v => exact fun h => if_neg (Nat.not_lt.2 (Nat.le_of_succ_le_succ h))
  | ref m n => exact fun h => if_neg (Nat.not_lt.2 (Nat.le_of_succ_le_succ h))
  | negate e ih =>
    intro level h
    rw [height] at h
    rw [collect, if_neg (by omega), ih (by omega), refs]
  | binary op l r ihl ihr =>
    intro level h
    rw [height] at h
    rw [collect, if_neg (by omega), ihl (by omega), ihr (by omega), refs]
    rfl

theorem ConstExpr.collect_of_lt {e : ConstExpr} : ∀ {level : Nat},
    maxLevels + 1 < level + e.height → e.collect level = none := by
  induction e with
  | literal v => exact fun h => if_pos (Nat.lt_of_succ_lt_succ h)
  | ref m n => exact fun h => if_pos (Nat.lt_of_succ_lt_succ h)
  | negate e ih =>
    intro level h
    rw [height] at h
    rw [collect, ih (by omega), ite_self]
  | binary op l r ihl ihr =>
    intro level h
    rw [height] at h
    rw [collect]
    -- If the left operand fits, it is the right one that does not.
    by_cases hleft : maxLevels + 1 < level + 1 + l.height
    · rw [ihl hleft, ite_self]
    · rw [collect_of_le (Nat.not_lt.1 hleft), ihr (by omega)]
      exact ite_self none

/-- From the top, the walk gives up on what has more levels than it may have. -/
theorem ConstExpr.collect_one (e : ConstExpr) :
    e.collect 1 = if maxLevels < e.height then none else some e.refs := by
  by_cases h : maxLevels < e.height
  · rw [if_pos h, collect_of_lt (by omega)]
  · rw [if_neg h, collect_of_le (by omega)]

namespace Evaluation

variable {resolver : Resolver} {root : Handle}

/-! ## Giving up -/

/-- A constant of a module at hand on which the walk gives up. -/
def TooHigh (resolver : Resolver) (root : Handle) (m x : String) : Prop :=
  ∃ k c e, Reached resolver root k ∧ k.name = m ∧ k.interface.const? x = some c ∧
    c.init = .expr e ∧ e.collect 1 = none

/-- By induction on the bound, from a constant to those that it needs. -/
theorem visit_tooHigh (bound : Nat) :
    ∀ {active : List Key} {known : Known} {k : Handle} {x m y : String}, Reached resolver root k →
      visit resolver bound active known k x = .error (.tooManyLevels m y) →
      TooHigh resolver root m y := by
  induction bound with
  | zero => exact fun _ h => nomatch h
  | succ bound ih =>
    intro active known k x m y hk h
    rw [visit_succ] at h
    have hlooks := look_spec resolver active known k x
    generalize look resolver active known k x = found at h hlooks
    cases hlooks with
    | known => cases h
    | unknown => cases h
    | stored => cases h
    | cycle => cases h
    | tooHigh hc he hheight =>
      cases h
      exact ⟨k, _, _, hk, rfl, hc, he, by rw [ConstExpr.collect_one, if_pos hheight]⟩
    | unresolved => cases h
    | @pending c e needed _ _ _ _ _ ht =>
      dsimp only at h
      split at h
      · rename_i hneeded
        cases h
        obtain ⟨d, hd, _, hvisit⟩ := visitAll_error hneeded
        obtain ⟨_, -, htarget⟩ := targets_mem ht d hd
        exact ih (hk.target htarget) hvisit
      · split at h
        · rename_i hcompute
          cases h
          rcases compute_error hcompute with ⟨_, _, h⟩ | ⟨_, h⟩ <;> cases h
        · cases h

theorem tooHigh_of_evaluate {x m y : String}
    (h : root.evaluate x resolver = .error (.tooManyLevels m y)) : TooHigh resolver root m y := by
  unfold Handle.evaluate at h
  split at h
  · rename_i hvisit
    cases h
    exact visit_tooHigh _ (.inl rfl) hvisit
  · split at h <;> cases h

/-- Where all constants are shallow, the walk goes through. -/
theorem not_tooHigh (h : ∀ k, Reached resolver root k → k.interface.Shallow) (m x : String) :
    ¬ TooHigh resolver root m x := by
  rintro ⟨k, c, e, hk, -, hc, he, hcollect⟩
  have hheight := h k hk c (Interface.mem_of_const? hc) e he
  rw [ConstExpr.collect_one, if_neg (Nat.not_lt.2 hheight)] at hcollect
  cases hcollect

end Evaluation

/-! ## Images -/

open Evaluation

theorem Modifiers.has_of_bits_lt {m : Modifiers} (h : m.bits < 4) :
    (sealed.union .abstract).has m = true := by
  have hlow : m.bits.toNat < 4 := h
  have hall : ∀ n < 4, (sealed.union .abstract).has ⟨UInt8.ofNat n⟩ = true := by decide
  have hm := hall _ hlow
  rwa [UInt8.ofNat_toNat] at hm

/--
An image that can be read, whoever wrote it: the hashes of its types come from their names, no
modifier has a bit that is neither sealed nor abstract, stored values have the kind of their
constant, and no initializer has too many levels, nor does the walk that gathers references find
any. So a constant evaluated among modules that were read from images is never nested too deeply.
-/
theorem decode_sound :
    (∀ bs i, Interface.decode bs = .ok i →
      (∀ t ∈ i.types, t.hash = .ofType i.name t.name ∧
        (Modifiers.sealed.union .abstract).has t.modifiers = true) ∧
      ∀ c ∈ i.constants, (∀ v, c.init = .value v → v.kind = c.kind) ∧
        ∀ e, c.init = .expr e → e.height ≤ maxLevels ∧ e.collect 1 = some e.refs) ∧
    ∀ (h : Handle) (resolver : Resolver), (∃ bs, Interface.decode bs = .ok h.interface) →
      (∀ m k, resolver.get? m = some k → ∃ bs, Interface.decode bs = .ok k.interface) →
      ∀ x m y, h.evaluate x resolver ≠ .error (.tooManyLevels m y) := by
  constructor
  · intro bs i hdecode
    obtain ⟨hproper, hshallow⟩ := Interface.sound_of_decode hdecode
    refine ⟨fun t ht => ?_, fun c hc => ⟨hproper.constants c hc, fun e he => ?_⟩⟩
    · have htype := hproper.types t ht
      exact ⟨htype.hash, Modifiers.has_of_bits_lt htype.modifiers⟩
    · have hheight := hshallow c hc e he
      exact ⟨hheight, by rw [ConstExpr.collect_one, if_neg (Nat.not_lt.2 hheight)]⟩
  · intro h resolver hroot hothers x m y hx
    refine not_tooHigh (fun k hk => ?_) m y (tooHigh_of_evaluate hx)
    have hdecoded : ∃ bs, Interface.decode bs = .ok k.interface := by
      rcases hk with rfl | ⟨n, hn⟩
      · exact hroot
      · exact hothers n k hn
    obtain ⟨bs, hbs⟩ := hdecoded
    exact (Interface.sound_of_decode hbs).2

/-! ### As many levels as there may be, and one more module below -/

open Interface

def belowMinuses : Interface :=
  { name := "B"
    optimization := .release
    references := []
    types := []
    constants := [⟨"Y", .int, .value (.int 3)⟩] }

theorem decode_sound_underMinuses :
    let h : Handle := ⟨1, underMinuses 255, none, none, true⟩
    let resolver := Resolver.ofHandles [⟨0, belowMinuses, none, none, true⟩]
    (minuses 255).height = maxLevels ∧ (minuses 255).collect 1 = some (minuses 255).refs ∧
      (∀ t ∈ (underMinuses 255).types, t.hash = .ofType "A" t.name) ∧
      h.evaluate "X" resolver = .ok (.int (-3)) ∧
      ∀ x m y, h.evaluate x resolver ≠ .error (.tooManyLevels m y) := by
  intro h resolver
  have hdecode : decode (underMinuses 255).encode = .ok (underMinuses 255) := by
    have hfits : (underMinuses 255).Fits := by decide +kernel
    exact Wire.unwrap_of_reads
      (reads hfits (proper_underMinuses 255) ((shallow_underMinuses 255).2 (by decide)))
  have hbase : decode belowMinuses.encode = .ok belowMinuses := by
    decide +kernel
  have hresolver : ∀ m k, resolver.get? m = some k → ∃ bs, decode bs = .ok k.interface := by
    intro m k hk
    rw [Resolver.get?_ofHandles] at hk
    obtain rfl := List.mem_singleton.1 (List.mem_of_find?_eq_some hk)
    exact ⟨_, hbase⟩
  obtain ⟨htypes, hconstants⟩ := decode_sound.1 _ _ hdecode
  have hheight := (hconstants _ List.mem_cons_self).2 _ rfl
  exact ⟨height_minuses 255, hheight.2, fun t ht => (htypes t ht).1, by decide +kernel,
    decode_sound.2 h resolver ⟨_, hdecode⟩ hresolver⟩

end Linkage
