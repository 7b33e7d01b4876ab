import Linkage.Proofs.Token.Places

/-!
# Linkage.Proofs.Text.ByteOrder

Texts stand in the order of their bytes: of two characters the one with the higher code has the
higher byte at the first place where their encodings differ.

* `utf8EncodeChar_cases` — the four lengths of an encoding.
* `utf8EncodeChar_lt` — the order of two characters is that of their bytes, whatever follows them.
* `bytes_lt_iff` — the order of two texts is that of their bytes.
-/

namespace Linkage
namespace Text

/-- The code of a character in digits of six bits; the first one is marked by the length. -/
theorem utf8EncodeChar_cases (c : Char) :
    (c.toNat ≤ 127 ∧ String.utf8EncodeChar c = [.ofNat c.toNat]) ∨
      ((127 < c.toNat ∧ c.toNat ≤ 2047) ∧ String.utf8EncodeChar c =
        [.ofNat (c.toNat / 64 + 192), .ofNat (c.toNat % 64 + 128)]) ∨
      ((2047 < c.toNat ∧ c.toNat ≤ 65535) ∧ String.utf8EncodeChar c =
        [.ofNat (c.toNat / 64 / 64 + 224), .ofNat (c.toNat / 64 % 64 + 128),
          .ofNat (c.toNat % 64 + 128)]) ∨
      ((65535 < c.toNat ∧ c.toNat < 1114112) ∧ String.utf8EncodeChar c =
        [.ofNat (c.toNat / 64 / 64 / 64 + 240), .ofNat (c.toNat / 64 / 64 % 64 + 128),
          .ofNat (c.toNat / 64 % 64 + 128), .ofNat (c.toNat % 64 + 128)]) := by
  have hbound : c.toNat < 1114112 := c.valid.elim (fun h => Nat.lt_trans h (by decide)) And.right
  unfold String.utf8EncodeChar
  rw [Char.toNat_val]
  generalize c.toNat = n at hbound
  dsimp only
  split
  · rename_i h
    exact .inl ⟨h, rfl⟩
  · rename_i hone
    split
    · rename_i h
      have hfirst : n / 64 % 32 = n / 64 := by omega
      rw [hfirst]
      exact .inr (.inl ⟨⟨Nat.lt_of_not_le hone, h⟩, rfl⟩)
    · rename_i htwo
      split
      · rename_i h
        have hfirst : n / 4096 % 16 = n / 64 / 64 := by omega
        rw [hfirst]
        exact .inr (.inr (.inl ⟨⟨Nat.lt_of_not_le htwo, h⟩, rfl⟩))
      · rename_i hthree
        have hfirst : n / 262144 % 8 = n / 64 / 64 / 64 := by omega
        have hsecond : n / 4096 = n / 64 / 64 := by omega
        rw [hfirst, hsecond]
        exact .inr (.inr (.inr ⟨⟨Nat.lt_of_not_le hthree, hbound⟩, rfl⟩))

/--
Encodings of different lengths differ in the first byte, which is higher in the longer one; in
encodings of one length the bytes are compared digit by digit.
-/
theorem utf8EncodeChar_lt {c d : Char} (h : c < d) (xs ys : List UInt8) :
    String.utf8EncodeChar c ++ xs < String.utf8EncodeChar d ++ ys := by
  have hlt : c.toNat < d.toNat := h
  rcases utf8EncodeChar_cases c with ⟨hc, hcs⟩ | ⟨hc, hcs⟩ | ⟨hc, hcs⟩ | ⟨hc, hcs⟩ <;>
  rcases utf8EncodeChar_cases d with ⟨hd, hds⟩ | ⟨hd, hds⟩ | ⟨hd, hds⟩ | ⟨hd, hds⟩ <;>
    simp only [hcs, hds, List.cons_append, List.nil_append, List.cons_lt_cons_iff,
      UInt8.lt_iff_toNat_lt, ← UInt8.toNat_inj, UInt8.toNat_ofNat'] <;>
    omega

theorem flatMap_utf8EncodeChar_lt {cs ds : List Char} (h : cs < ds) :
    cs.flatMap String.utf8EncodeChar < ds.flatMap String.utf8EncodeChar := by
  induction cs generalizing ds with
  | nil =>
    cases ds with
    | nil => exact absurd h (List.not_lt_nil _)
    | cons d ds =>
      rw [List.flatMap_nil, List.flatMap_cons]
      rcases utf8EncodeChar_cases d with ⟨-, hd⟩ | ⟨-, hd⟩ | ⟨-, hd⟩ | ⟨-, hd⟩ <;>
        rw [hd] <;> exact List.nil_lt_cons _ _
  | cons c cs ih =>
    cases ds with
    | nil => exact absurd h (List.not_lt_nil _)
    | cons d ds =>
      rw [List.flatMap_cons, List.flatMap_cons]
      rcases List.cons_lt_cons_iff.1 h with hlt | ⟨rfl, hlt⟩
      · exact utf8EncodeChar_lt hlt _ _
      · exact List.append_left_lt (ih hlt)

theorem bytes_lt_of_lt {s t : String} (h : s < t) : bytes s < bytes t := by
  have hbytes (u : String) : bytes u = u.toList.flatMap String.utf8EncodeChar := by
    rw [← bytes_ofList, String.ofList_toList]
  rw [hbytes, hbytes]
  exact flatMap_utf8EncodeChar_lt h

/-- Both orders are linear, so it is enough that one of them follows from the other. -/
theorem bytes_lt_iff {s t : String} : bytes s < bytes t ↔ s < t := by
  refine ⟨fun h => ?_, bytes_lt_of_lt⟩
  rcases Decidable.em (s < t) with hst | hst
  · exact hst
  · rcases Decidable.em (t < s) with hts | hts
    · exact absurd (bytes_lt_of_lt hts) (List.lt_asymm h)
    · obtain rfl := String.le_antisymm (String.not_lt.1 hts) (String.not_lt.1 hst)
      exact absurd h (List.lt_irrefl _)

end Text
end Linkage
