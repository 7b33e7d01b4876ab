import Linkage.Proofs.Token.Lossless

/-!
# Linkage.Proofs.Token.Order

The order of spans by where they start.

* `Span.startsBefore_iff`, `refl`, `trans` — lines first, then columns, as numbers.
* `Span.Within` — a start between two others; merging two spans stays between.
* `pieces_in_order` — the pieces of a source start one after the other.
-/

namespace Linkage

namespace Span

theorem startsBefore_iff {a b : Span} : a.startsBefore b ↔
    a.line.toNat < b.line.toNat ∨ a.line.toNat = b.line.toNat ∧ a.col.toNat ≤ b.col.toNat := by
  simp only [startsBefore, Bool.or_eq_true, Bool.and_eq_true, decide_eq_true_eq, beq_iff_eq,
    UInt32.lt_iff_toNat_lt, UInt32.le_iff_toNat_le, UInt32.toNat_inj]

theorem startsBefore_refl (a : Span) : a.startsBefore a :=
  startsBefore_iff.2 (.inr ⟨rfl, Nat.le_refl _⟩)

theorem startsBefore_trans {a b c : Span} (hab : a.startsBefore b) (hbc : b.startsBefore c) :
    a.startsBefore c := by
  rw [startsBefore_iff] at *
  omega

/-- It starts at the first of these or later, and at the second one or earlier. -/
structure Within (low high s : Span) : Prop where
  low : low.startsBefore s
  high : s.startsBefore high

theorem Within.widen {low low' high high' s : Span} (h : Within low high s)
    (hlow : low'.startsBefore low) (hhigh : high.startsBefore high') : Within low' high' s :=
  ⟨startsBefore_trans hlow h.low, startsBefore_trans h.high hhigh⟩

/-- Only the start counts. -/
theorem Within.congr {low high s t : Span} (h : Within low high s) (hline : t.line = s.line)
    (hcol : t.col = s.col) : Within low high t := by
  obtain ⟨hlow, hhigh⟩ := h
  rw [startsBefore_iff] at hlow hhigh
  constructor <;> rwa [startsBefore_iff, hline, hcol]

/-- Merged spans start where one of them does. -/
theorem merge_start (a b : Span) : ((a.merge b).line = a.line ∧ (a.merge b).col = a.col) ∨
    ((a.merge b).line = b.line ∧ (a.merge b).col = b.col) := by
  fun_cases merge a b with
  | case1 hline start =>
    rcases Std.min_eq_or (a := a.col) (b := b.col) with hmin | hmin
    · exact .inl ⟨rfl, hmin⟩
    · exact .inr ⟨hline, hmin⟩
  | case2 => exact .inl ⟨rfl, rfl⟩
  | case3 => exact .inr ⟨rfl, rfl⟩

theorem Within.merge {low high a b : Span} (ha : Within low high a) (hb : Within low high b) :
    Within low high (a.merge b) := by
  rcases merge_start a b with ⟨hline, hcol⟩ | ⟨hline, hcol⟩
  · exact ha.congr hline hcol
  · exact hb.congr hline hcol

end Span

/-! ## Pieces -/

theorem Text.lastLine_append {ds : List Char} : ∀ {cs : List Char}, '\n' ∉ ds →
    lastLine (cs ++ ds) = lastLine cs ++ ds := by
  induction ds with
  | nil => simp
  | cons d ds ih =>
    intro cs hds
    rw [List.mem_cons, not_or] at hds
    rw [← List.singleton_append, ← List.append_assoc, ih hds.2, lastLine_concat cs (Ne.symm hds.1),
      List.append_assoc]

/-- What stands after more of the same text starts later. -/
theorem Span.Covers.startsBefore {s t : Span} {before after text text' : List Char}
    (hs : s.Covers before text) (ht : t.Covers (before ++ after) text') : s.startsBefore t := by
  rw [Span.startsBefore_iff, hs.line, ht.line, hs.col, ht.col, List.count_append]
  by_cases hbreak : '\n' ∈ after
  · have hcount := List.count_pos_iff.2 hbreak
    omega
  · rw [List.count_eq_zero.2 hbreak, Text.lastLine_append hbreak, Text.byteLength_append]
    omega

def Piece.span : Piece → Span
  | .token t => t.span
  | .error e => e.span

namespace Token

/-- Every piece stands somewhere after what is in front of the whole text. -/
theorem Cut.exists_covers {before cs : List Char} {pieces : List Piece} {last : Token}
    (h : Cut before cs pieces last) {p : Piece} : p ∈ pieces ++ [.token last] →
    ∃ after text, p.span.Covers (before ++ after) text := by
  induction h with
  | @done before gap last _ _ _ hcovers =>
    intro hp
    rw [List.nil_append, List.mem_singleton] at hp
    exact ⟨gap, [], hp ▸ hcovers⟩
  | @token before gap after t last pieces _ _ _ hcovers _ ih =>
    intro hp
    rcases List.mem_cons.1 hp with rfl | hp
    · exact ⟨gap, _, hcovers⟩
    · obtain ⟨cs, text, hp⟩ := ih hp
      rw [List.append_assoc, List.append_assoc] at hp
      exact ⟨_, text, hp⟩
  | @error before gap text after e last pieces _ _ hcovers _ ih =>
    intro hp
    rcases List.mem_cons.1 hp with rfl | hp
    · exact ⟨gap, _, hcovers⟩
    · obtain ⟨cs, text', hp⟩ := ih hp
      rw [List.append_assoc, List.append_assoc] at hp
      exact ⟨_, text', hp⟩

/-- By induction on the cut. -/
theorem Cut.pairwise {before cs : List Char} {pieces : List Piece} {last : Token}
    (h : Cut before cs pieces last) :
    (pieces ++ [Piece.token last]).Pairwise fun p q => p.span.startsBefore q.span := by
  induction h with
  | done => exact List.pairwise_singleton _ _
  | @token before gap after t last pieces _ _ _ hcovers hrest ih =>
    refine List.pairwise_cons.2 ⟨fun q hq => ?_, ih⟩
    obtain ⟨cs, text, hq⟩ := hrest.exists_covers hq
    rw [List.append_assoc] at hq
    exact hcovers.startsBefore hq
  | @error before gap text after e last pieces _ _ hcovers hrest ih =>
    refine List.pairwise_cons.2 ⟨fun q hq => ?_, ih⟩
    obtain ⟨cs, text', hq⟩ := hrest.exists_covers hq
    rw [List.append_assoc] at hq
    exact hcovers.startsBefore hq

theorem pieces_in_order {source : String} (h : (Text.bytes source).length < 4294967295) :
    (ofSource source).Pairwise fun p q => p.span.startsBefore q.span := by
  obtain ⟨pieces, last, hscan, hcut⟩ := exists_cut_ofSource h
  rw [hscan]
  exact hcut.pairwise

end Token
end Linkage
