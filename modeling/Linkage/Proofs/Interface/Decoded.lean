import Linkage.Proofs.Interface.RoundTrip

/-!
# Linkage.Proofs.Interface.Decoded

What every interface that was read from an image satisfies, whoever wrote the image.

* `Wire.Reader.Yields r P` — all that the reader `r` can give satisfies `P`.
* `Interface.sound_of_decode` — an interface from an image is proper and shallow.
-/

namespace Linkage

namespace Wire

namespace Reader

variable {α β : Type}

def Yields (r : Reader α) (P : α → Prop) : Prop := ∀ i a j, r i = .ok (a, j) → P a

theorem yields_true (r : Reader α) : Yields r fun _ => True := fun _ _ _ _ => trivial

theorem yields_pure {P : α → Prop} {a : α} (h : P a) : Yields (pure a) P := by
  intro i b j hb
  cases hb
  exact h

theorem yields_fail (fault : Nat → FormatError) (P : α → Prop) : Yields (fail fault) P :=
  fun _ _ _ h => nomatch h

theorem Yields.bind {r : Reader α} {f : α → Reader β} {P : α → Prop} {Q : β → Prop}
    (hr : Yields r P) (hf : ∀ a, P a → Yields (f a) Q) : Yields (r >>= f) Q := by
  intro i b k hb
  change Reader.bind r f i = .ok (b, k) at hb
  unfold Reader.bind at hb
  split at hb
  · cases hb
  · rename_i a j ha
    exact hf a (hr i a j ha) j b k hb

theorem Yields.after {r : Reader α} {f : α → Reader β} {Q : β → Prop}
    (hf : ∀ a, Yields (f a) Q) : Yields (r >>= f) Q :=
  (yields_true r).bind fun a _ => hf a

theorem Yields.map {r : Reader α} {f : α → β} {P : α → Prop} {Q : β → Prop}
    (hr : Yields r P) (hf : ∀ a, P a → Q (f a)) : Yields (f <$> r) Q :=
  hr.bind fun a ha => yields_pure (hf a ha)

theorem yields_tag {what : String} {meaning : UInt8 → Option α} {P : α → Prop}
    (h : ∀ b a, meaning b = some a → P a) : Yields (tag what meaning) P := by
  intro i a j ha
  unfold tag at ha
  split at ha
  · cases ha
  · split at ha
    · rename_i hc
      cases ha
      exact h _ _ hc
    · cases ha

theorem yields_times {item : Reader α} {P : α → Prop} (h : Yields item P) (n : Nat) :
    Yields (times item n) fun as => ∀ a ∈ as, P a := by
  induction n with
  | zero => exact yields_pure fun _ ha => nomatch ha
  | succ n ih =>
    refine h.bind fun a ha => ih.bind fun as has => yields_pure fun b hb => ?_
    rcases List.mem_cons.1 hb with rfl | hb
    · exact ha
    · exact has b hb

theorem yields_list {item : Reader α} {P : α → Prop} (h : Yields item P) :
    Yields (list item) fun as => ∀ a ∈ as, P a :=
  .after fun n => yields_times h n

end Reader

theorem of_unwrap {α : Type} {f : Format} {r : Reader α} {P : α → Prop} (hr : r.Yields P)
    {bs : Bytes} {a : α} (h : f.unwrap r bs = .ok a) : P a := by
  unfold Format.unwrap at h
  dsimp only at h
  split at h
  · cases h
  split at h
  · cases h
  split at h
  · cases h
  split at h
  · cases h
  split at h
  · cases h
  · rename_i b i hb
    split at h
    · cases h
      exact hr _ _ _ hb
    · cases h

end Wire

open Wire
open Wire.Reader

theorem Value.yields_reader (k : Kind) : Yields (Value.reader k) fun v => v.kind = k := by
  cases k <;> exact .after fun _ => yields_pure rfl

theorem ConstExpr.yields_reader (levels : Nat) :
    Yields (ConstExpr.reader levels) fun e => e.height ≤ levels := by
  induction levels with
  | zero => exact yields_fail _ _
  | succ levels ih =>
    refine .after fun form => ?_
    split
    · exact .after fun k => .after fun v => yields_pure (Nat.succ_le_succ (Nat.zero_le _))
    · exact .after fun n => yields_pure (Nat.succ_le_succ (Nat.zero_le _))
    · exact .after fun m => .after fun n => yields_pure (Nat.succ_le_succ (Nat.zero_le _))
    · exact ih.bind fun e he => yields_pure (Nat.succ_le_succ he)
    · refine .after fun op => ih.bind fun l hl => ih.bind fun r hr => yields_pure ?_
      exact Nat.succ_le_succ (Nat.max_le.2 ⟨hl, hr⟩)

theorem TypeDef.yields_reader (module : String) :
    Yields (TypeDef.reader module) (TypeDef.Proper module) := by
  have hmodifiers : Yields (tag "type flags" Modifiers.ofBits?) fun m => m.bits < 4 := by
    refine yields_tag fun b m h => ?_
    unfold Modifiers.ofBits? at h
    split at h
    · rename_i hlt
      cases h
      exact hlt
    · cases h
  refine .after fun name => hmodifiers.bind fun m hm => .after fun based => ?_
  split
  · exact .after fun base => .after fun fields => yields_pure ⟨hm, rfl⟩
  · exact .after fun base => .after fun fields => yields_pure ⟨hm, rfl⟩

theorem ConstDef.yields_reader : Yields ConstDef.reader fun c => c.Proper ∧ c.Shallow := by
  refine .after fun name => .after fun k => .after fun isExpr => ?_
  split
  · have hinit : Yields (Init.expr <$> ConstExpr.reader maxLevels) fun init =>
        ∃ e, init = .expr e ∧ e.height ≤ maxLevels :=
      (ConstExpr.yields_reader maxLevels).map fun e he => ⟨e, rfl, he⟩
    refine hinit.bind fun init h => yields_pure ?_
    obtain ⟨e, rfl, he⟩ := h
    constructor
    · intro v hv
      cases hv
    · intro e' he'
      cases he'
      exact he
  · have hinit : Yields (Init.value <$> Value.reader k) fun init =>
        ∃ v, init = .value v ∧ v.kind = k :=
      (Value.yields_reader k).map fun v hv => ⟨v, rfl, hv⟩
    refine hinit.bind fun init h => yields_pure ?_
    obtain ⟨v, rfl, hv⟩ := h
    constructor
    · intro v' hv'
      cases hv'
      exact hv
    · intro e he
      cases he

namespace Interface

theorem sound_of_decode {bs : Bytes} {i : Interface} (h : decode bs = .ok i) :
    i.Proper ∧ i.Shallow := by
  have hreader : Yields Interface.reader fun i => i.Proper ∧ i.Shallow := by
    refine .after fun optimization => .after fun name => .after fun references => ?_
    refine (yields_list (TypeDef.yields_reader name)).bind fun types htypes => ?_
    refine (yields_list ConstDef.yields_reader).bind fun constants hconstants => yields_pure ?_
    exact ⟨⟨htypes, fun c hc => (hconstants c hc).1⟩, fun c hc => (hconstants c hc).2⟩
  exact of_unwrap hreader h

/-- Whatever else of an image comes back, its name does. -/
theorem name_of_decode_encode {i j : Interface} (h : Text.Fits i.name)
    (hd : decode i.encode = .ok j) : j.name = i.name := by
  unfold decode encode at hd
  rw [unwrap_envelope, Reader.whole, body_eq] at hd
  split at hd
  · cases hd
  · rename_i k rest hk
    have hname := (reads_string h).rest ((reads_tag i.optimization.ofTag?_tag).rest hk)
    have hsame : k.name = i.name :=
      Yields.after (Q := fun k => k.name = i.name) (fun references => .after fun types =>
        .after fun constants => yields_pure rfl) _ _ _ hname
    split at hd
    · cases hd
      exact hsame
    · cases hd

end Interface

end Linkage
