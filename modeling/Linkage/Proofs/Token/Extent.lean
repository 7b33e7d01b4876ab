import Linkage.Proofs.Token.Order

/-!
# Linkage.Proofs.Token.Extent

Which part of a source a span stands for.

A merged span is not as long as the text from its start to its end if that goes over several lines:
its length adds up what it was merged from. What is kept is that it starts where the first of them
does and is not longer than the text.

* `Span.PointsAt` — the start of a piece, which is where it says.
* `Span.Lies` — a span between two places of a source, its start being the first of these.
* `Span.Joined` — two spans merged without a sum that is too large for a word.
* `Lies.merge`, `Lies.joined` — spans one after the other can be merged.
* `Queue` — pieces one after the other, up to the end. The pieces of a source are (`queue_ofSource`).
-/

namespace Linkage

/-! ## Offsets -/

/-- The bytes before the character with this number. -/
def Text.offset (source : String) (i : Nat) : Nat := byteLength (source.toList.take i)

theorem Text.take_eq_append (source : String) {i k : Nat} (h : i ≤ k) :
    ∃ between, source.toList.take k = source.toList.take i ++ between := by
  refine ⟨(source.toList.take k).drop i, ?_⟩
  have hsplit := List.take_append_drop i (source.toList.take k)
  rwa [List.take_take, Nat.min_eq_left h, eq_comm] at hsplit

theorem Text.offset_mono (source : String) {i k : Nat} (h : i ≤ k) :
    offset source i ≤ offset source k := by
  obtain ⟨between, hk⟩ := take_eq_append source h
  rw [offset, offset, hk, byteLength_append]
  exact Nat.le_add_right _ _

theorem Text.offset_le (source : String) (i : Nat) :
    offset source i ≤ (bytes source).length := by
  have hlength : (bytes source).length = byteLength source.toList := by
    rw [← length_bytes_ofList, String.ofList_toList]
  rw [hlength, offset]
  calc byteLength (source.toList.take i)
      ≤ byteLength (source.toList.take i ++ source.toList.drop i) := by
        rw [byteLength_append]
        exact Nat.le_add_right _ _
    _ = byteLength source.toList := by rw [List.take_append_drop]

namespace Span

/-! ## Merging -/

/-- Two spans merged, where no sum on the way is too large for a word. -/
structure Joined (a b s : Span) : Prop where
  merged : s = a.merge b
  first : a.col.toNat + a.len.toNat < UInt32.size
  second : b.col.toNat + b.len.toNat < UInt32.size
  both : a.len.toNat + b.len.toNat < UInt32.size

theorem toNat_add {a b : UInt32} (h : a.toNat + b.toNat < UInt32.size) :
    (a + b).toNat = a.toNat + b.toNat := by
  rw [UInt32.toNat_add]
  exact Nat.mod_eq_of_lt h

theorem toNat_max (a b : UInt32) : (max a b).toNat = max a.toNat b.toNat := by
  show (if a ≤ b then b else a).toNat = _
  rw [apply_ite UInt32.toNat]
  simp only [UInt32.le_iff_toNat_le]
  rfl

/-- On one line the length is what is between the first start and the last end. -/
theorem Joined.sameLine {a b s : Span} (h : Joined a b s) (hline : a.line = b.line)
    (hcol : a.col ≤ b.col) : s.line = a.line ∧ s.col = a.col ∧
      s.len.toNat = max (b.col.toNat + b.len.toNat) (a.col.toNat + a.len.toNat) - a.col.toNat := by
  obtain ⟨rfl, hfirst, hsecond, -⟩ := h
  have hstart : min a.col b.col = a.col := if_pos hcol
  have hend : (max (b.col + b.len) (a.col + a.len)).toNat =
      max (b.col.toNat + b.len.toNat) (a.col.toNat + a.len.toNat) := by
    rw [toNat_max, toNat_add hsecond, toNat_add hfirst]
  rw [merge, if_pos hline, hstart]
  refine ⟨rfl, rfl, ?_⟩
  rw [UInt32.toNat_sub_of_le, hend]
  rw [UInt32.le_iff_toNat_le, hend]
  omega

/-- Over several lines it is the sum of the lengths. -/
theorem Joined.nextLine {a b s : Span} (h : Joined a b s) (hline : a.line < b.line) :
    s.line = a.line ∧ s.col = a.col ∧ s.len.toNat = a.len.toNat + b.len.toNat := by
  obtain ⟨rfl, -, -, hboth⟩ := h
  have hne : a.line ≠ b.line := fun heq => UInt32.lt_irrefl _ (heq ▸ hline)
  have hbefore : a.startsBefore b := by
    rw [startsBefore, decide_eq_true hline, Bool.true_or]
  rw [merge, if_neg hne, if_pos hbefore]
  exact ⟨rfl, rfl, toNat_add hboth⟩

/-! ## Spans in a source -/

/-- The span starts where a piece of the source does, and this piece is where it says. -/
def PointsAt (source : String) (s : Span) : Prop :=
  ∃ p ∈ Token.ofSource source, s.line = p.span.line ∧ s.col = p.span.col ∧
    ∃ before text after, source.toList = before ++ text ++ after ∧ p.span.Covers before text

theorem PointsAt.congr {source : String} {s t : Span} (h : PointsAt source s)
    (hline : t.line = s.line) (hcol : t.col = s.col) : PointsAt source t := by
  rw [PointsAt, hline, hcol]
  exact h

/--
The span starts at the character with the number `i`, where a piece starts too, and is not longer
than the text from there to the one with the number `j`.
-/
structure Lies (source : String) (s : Span) (i j : Nat) : Prop where
  pointsAt : PointsAt source s
  order : i ≤ j
  line : s.line.toNat = 1 + (source.toList.take i).count '\n'
  col : s.col.toNat = 1 + Text.byteLength (Text.lastLine (source.toList.take i))
  len : Text.offset source i + s.len.toNat ≤ Text.offset source j

/-- The span lies somewhere in the source. -/
def Sits (source : String) (s : Span) : Prop := ∃ i j, Lies source s i j

variable {source : String} {a b s : Span} {i j k l : Nat}

/-- A line is not longer than the text. -/
theorem Lies.fits (h : Lies source s i j) :
    s.col.toNat + s.len.toNat ≤ (Text.bytes source).length + 1 := by
  have hcol := Text.byteLength_lastLine_le (source.toList.take i)
  have hlen := h.len
  have hend := Text.offset_le source j
  rw [h.col]
  unfold Text.offset at hlen hend
  omega

variable (hsource : (Text.bytes source).length < 4294967295)
include hsource

theorem Lies.joined (ha : Lies source a i j) (hjk : j ≤ k) (hb : Lies source b k l) :
    Joined a b (a.merge b) := by
  have hsize : UInt32.size = 4294967296 := rfl
  have hfirst := ha.fits
  have hsecond := hb.fits
  have hjk := Text.offset_mono source hjk
  have hend := Text.offset_le source l
  have halen := ha.len
  have hblen := hb.len
  exact ⟨rfl, by omega, by omega, by omega⟩

/-- What is merged starts where the first span does and does not go beyond the second one. -/
theorem Lies.merge (ha : Lies source a i j) (hjk : j ≤ k) (hb : Lies source b k l) :
    Lies source (a.merge b) i l := by
  have hjoined := ha.joined hsource hjk hb
  have hik : i ≤ k := Nat.le_trans ha.order hjk
  obtain ⟨between, hbetween⟩ := Text.take_eq_append source hik
  have hoffset : Text.offset source k = Text.offset source i + Text.byteLength between := by
    rw [Text.offset, hbetween, Text.byteLength_append, ← Text.offset]
  have hjk := Text.offset_mono source hjk
  have halen := ha.len
  have hblen := hb.len
  have hline := hb.line
  rw [hbetween, List.count_append, ← Nat.add_assoc, ← ha.line] at hline
  obtain ⟨hmline, hmcol, hmlen⟩ : (a.merge b).line = a.line ∧ (a.merge b).col = a.col ∧
      Text.offset source i + (a.merge b).len.toNat ≤ Text.offset source l := by
    by_cases hbreak : '\n' ∈ between
    · have hlater : a.line < b.line := by
        have hpos := List.count_pos_iff.2 hbreak
        rw [UInt32.lt_iff_toNat_lt]
        omega
      obtain ⟨hmline, hmcol, hmlen⟩ := hjoined.nextLine hlater
      exact ⟨hmline, hmcol, by omega⟩
    · have hsame : a.line = b.line := by
        rw [List.count_eq_zero.2 hbreak, Nat.add_zero] at hline
        exact UInt32.toNat_inj.1 hline.symm
      have hcol := hb.col
      rw [hbetween, Text.lastLine_append hbreak, Text.byteLength_append, ← Nat.add_assoc,
        ← ha.col] at hcol
      have hle : a.col ≤ b.col := by
        rw [UInt32.le_iff_toNat_le]
        omega
      obtain ⟨hmline, hmcol, hmlen⟩ := hjoined.sameLine hsame hle
      exact ⟨hmline, hmcol, by omega⟩
  refine ⟨ha.pointsAt.congr hmline hmcol, ?_, ?_, ?_, hmlen⟩
  · exact Nat.le_trans hik hb.order
  · rw [hmline, ha.line]
  · rw [hmcol, ha.col]

end Span

/-! ## Pieces -/

namespace Token

/-- The token is one of the source and lies there. -/
structure At (source : String) (t : Token) (i j : Nat) : Prop where
  mem : .token t ∈ ofSource source
  lies : t.span.Lies source i j

/-- Pieces of the source one after the other from this character on, of which the end is the last. -/
inductive Queue (source : String) : Nat → List Piece → Prop where
  | last {k i : Nat} {t : Token} :
      k ≤ i → t.kind = .eof → t.At source i i → Queue source k [.token t]
  | token {k i j : Nat} {t : Token} {pieces : List Piece} :
      k ≤ i → t.kind ≠ .eof → t.At source i j → Queue source j pieces →
      Queue source k (.token t :: pieces)
  | error {k j : Nat} {e : LexError} {pieces : List Piece} :
      k ≤ j → e.span.PointsAt source → Queue source j pieces →
      Queue source k (.error e :: pieces)

theorem Queue.earlier {source : String} {k m : Nat} {pieces : List Piece}
    (h : Queue source m pieces) (hk : k ≤ m) : Queue source k pieces := by
  cases h with
  | last hm hkind hat => exact .last (Nat.le_trans hk hm) hkind hat
  | token hm hkind hat hrest => exact .token (Nat.le_trans hk hm) hkind hat hrest
  | error hm hpoints hrest => exact .error (Nat.le_trans hk hm) hpoints hrest

/-- A piece that covers a text of the source points there and lies there. -/
theorem lies_of_covers {source : String} {before text after : List Char} {p : Piece}
    (hp : p ∈ ofSource source) (hsource : source.toList = before ++ text ++ after)
    (hcovers : p.span.Covers before text) :
    p.span.Lies source before.length (before ++ text).length := by
  have hbefore : source.toList.take before.length = before := by
    rw [hsource, List.append_assoc, List.take_left]
  have htext : source.toList.take (before ++ text).length = before ++ text := by
    rw [hsource, List.take_left]
  refine ⟨⟨p, hp, rfl, rfl, before, text, after, hsource, hcovers⟩, ?_, ?_, ?_, ?_⟩
  · rw [List.length_append]
    exact Nat.le_add_right _ _
  · rw [hbefore, hcovers.line]
  · rw [hbefore, hcovers.col]
  · rw [Text.offset, Text.offset, hbefore, htext, Text.byteLength_append, hcovers.len]

/-- By induction on the cut. -/
theorem Cut.queue {source : String} {before cs : List Char} {pieces : List Piece} {last : Token}
    (h : Cut before cs pieces last) (hsource : source.toList = before ++ cs)
    (hmem : ∀ p ∈ pieces ++ [.token last], p ∈ ofSource source) :
    Queue source before.length (pieces ++ [.token last]) := by
  induction h with
  | @done before gap last _ hkind _ hcovers =>
    have hlast := hmem (.token last) (List.mem_singleton_self _)
    have hend : source.toList = before ++ gap ++ [] ++ [] := by simpa using hsource
    have hlies := lies_of_covers hlast hend hcovers
    rw [List.append_nil] at hlies
    refine .last (i := (before ++ gap).length) ?_ hkind ⟨hlast, hlies⟩
    rw [List.length_append]
    exact Nat.le_add_right _ _
  | @token before gap after t last pieces _ hkind _ hcovers _ ih =>
    have htoken := hmem (.token t) List.mem_cons_self
    have hsplit : source.toList = before ++ gap ++ t.lexeme.toList ++ after := by
      simpa using hsource
    have hlies := lies_of_covers htoken hsplit hcovers
    refine .token ?_ hkind ⟨htoken, hlies⟩ (ih hsplit fun p hp => hmem p (List.mem_cons_of_mem _ hp))
    rw [List.length_append]
    exact Nat.le_add_right _ _
  | @error before gap text after e last pieces _ _ hcovers _ ih =>
    have herror := hmem (.error e) List.mem_cons_self
    have hsplit : source.toList = before ++ gap ++ text ++ after := by
      simpa using hsource
    refine .error ?_ ⟨_, herror, rfl, rfl, _, _, _, hsplit, hcovers⟩
      (ih hsplit fun p hp => hmem p (List.mem_cons_of_mem _ hp))
    rw [List.length_append, List.length_append, Nat.add_assoc]
    exact Nat.le_add_right _ _

theorem queue_ofSource {source : String} (h : (Text.bytes source).length < 4294967295) :
    Queue source 0 (ofSource source) := by
  obtain ⟨pieces, last, hscan, hcut⟩ := exists_cut_ofSource h
  have hall : source.toList = [] ++ source.toList := rfl
  have hqueue := hcut.queue hall fun p hp => hscan ▸ hp
  rwa [← hscan] at hqueue

end Token
end Linkage
