import Linkage.Token.Scan
import Mathlib.Data.List.Induction
import Mathlib.Data.List.TakeWhile

/-!
# Linkage.Proofs.Token.Places

Every token stands where its span says, whatever is around it: comments, line breaks, byte-order
marks and characters of several bytes.

* `Span.excerpt?` — the bytes that a span points at in a text.
* `split_of_mem_scan` — the characters before a token, of the token and after it.
* `exists_line` — what the counters of a place say about the characters before it.
* `excerpt?_of_mem_ofSource` — the span of a token points at its lexeme.
-/

namespace Linkage

namespace Text

theorem bytes_ofList (cs : List Char) :
    bytes (String.ofList cs) = cs.flatMap String.utf8EncodeChar := by
  simp [bytes, List.utf8Encode]

theorem bytes_ofList_append (cs ds : List Char) :
    bytes (String.ofList (cs ++ ds)) = bytes (String.ofList cs) ++ bytes (String.ofList ds) := by
  simp only [bytes_ofList, List.flatMap_append]

@[simp] theorem byteLength_nil : byteLength [] = 0 := rfl

@[simp] theorem byteLength_cons (c : Char) (cs : List Char) :
    byteLength (c :: cs) = c.utf8Size + byteLength cs := rfl

@[simp] theorem byteLength_append (cs ds : List Char) :
    byteLength (cs ++ ds) = byteLength cs + byteLength ds := by
  induction cs with
  | nil => simp
  | cons c cs ih =>
    rw [List.cons_append, byteLength_cons, byteLength_cons, ih]
    omega

theorem length_bytes_ofList (cs : List Char) :
    (bytes (String.ofList cs)).length = byteLength cs := by
  rw [bytes_ofList]
  induction cs with
  | nil => rfl
  | cons c cs ih =>
    rw [List.flatMap_cons, List.length_append, ih, String.length_utf8EncodeChar, byteLength_cons]

theorem length_le_byteLength (cs : List Char) : cs.length ≤ byteLength cs := by
  induction cs with
  | nil => exact Nat.le_refl 0
  | cons c cs ih =>
    have := c.utf8Size_pos
    rw [List.length_cons, byteLength_cons]
    omega

/-! ## Lines -/

/-- The text from the start of this line on, if there is such a line. Lines count from 1. -/
def fromLine? : Nat → List Char → Option (List Char)
  | 0, _ => none
  | 1, cs => some cs
  | _ + 2, [] => none
  | n + 2, c :: cs => if c = '\n' then fromLine? (n + 1) cs else fromLine? (n + 2) cs

theorem fromLine?_one (cs : List Char) : fromLine? 1 cs = some cs := by
  unfold fromLine?
  rfl

/-- The next line starts after the line break. -/
theorem fromLine?_line (n : Nat) {line : List Char} (h : '\n' ∉ line) (cs : List Char) :
    fromLine? (n + 2) (line ++ '\n' :: cs) = fromLine? (n + 1) cs := by
  induction line with
  | nil => simp [fromLine?]
  | cons c line ih =>
    rw [List.mem_cons, not_or] at h
    simp only [List.cons_append, fromLine?, Ne.symm h.1, if_false]
    exact ih h.2

end Text

/--
The bytes that a span points at: from its line and its column on, as many as it is long. Columns
count bytes from 1.
-/
def Span.excerpt? (s : Span) (text : String) : Option (List UInt8) :=
  match Text.fromLine? s.line.toNat text.toList with
  | none => none
  | some line =>
    let bs := Text.bytes (String.ofList line)
    if s.col = 0 ∨ bs.length < s.col.toNat - 1 + s.len.toNat then none
    else some ((bs.drop (s.col.toNat - 1)).take s.len.toNat)

/-! ## Counting -/

theorem Place.advance_append (p : Place) (cs ds : List Char) :
    p.advance (cs ++ ds) = (p.advance cs).advance ds :=
  List.foldl_append

/--
After any text the line is one more than the line breaks in it, and the column one more than the
bytes after the last of them. By induction from the end, where one character is added.
-/
theorem Place.exists_line (cs : List Char) :
    ∃ above line, cs = above ++ line ∧
      (Place.start.advance cs) =
        ⟨UInt32.ofNat (1 + above.count '\n'), UInt32.ofNat (1 + Text.byteLength line)⟩ ∧
      '\n' ∉ line ∧ ∀ n ds, Text.fromLine? (n + 1 + above.count '\n') (above ++ ds) =
        Text.fromLine? (n + 1) ds := by
  induction cs using List.reverseRecOn with
  | nil => exact ⟨[], [], rfl, rfl, List.not_mem_nil, fun _ _ => rfl⟩
  | append_singleton cs c ih =>
    obtain ⟨above, line, rfl, hplace, hline, hfrom⟩ := ih
    rw [advance_append, hplace]
    show ∃ above' line', _ ∧ Place.step _ c = _ ∧ _
    by_cases hc : c = '\n'
    · subst hc
      have hcount : (above ++ line ++ ['\n']).count '\n' = above.count '\n' + 1 := by
        simp [List.count_eq_zero.2 hline]
      refine ⟨above ++ line ++ ['\n'], [], by simp, ?_, List.not_mem_nil, ?_⟩
      · rw [hcount, ← Nat.add_assoc, UInt32.ofNat_add _ 1]
        rfl
      · intro n ds
        have hsplit : above ++ line ++ ['\n'] ++ ds = above ++ (line ++ '\n' :: ds) := by simp
        have hlines : n + 1 + (above.count '\n' + 1) = n + 1 + 1 + above.count '\n' := by omega
        rw [hcount, hsplit, hlines, hfrom, Text.fromLine?_line n hline]
    · refine ⟨above, line ++ [c], by simp, ?_, ?_, hfrom⟩
      · rw [Place.step, if_neg hc, Text.byteLength_append, ← Nat.add_assoc,
          UInt32.ofNat_add _ (Text.byteLength [c])]
        rfl
      · simp [hline, Ne.symm hc]

/-- A piece of a text is where the place before it says. -/
theorem Place.excerpt?_span {text : String} {before word after : List Char}
    (h : text.toList = before ++ word ++ after)
    (hlength : (Text.bytes text).length < 4294967295) :
    ((Place.start.advance before).span word).excerpt? text =
      some (Text.bytes (String.ofList word)) := by
  obtain ⟨above, line, rfl, hplace, -, hfrom⟩ := exists_line before
  have hbytes : Text.byteLength above + Text.byteLength line + Text.byteLength word +
      Text.byteLength after < 4294967295 := by
    rwa [← String.ofList_toList (s := text), Text.length_bytes_ofList, h, Text.byteLength_append,
      Text.byteLength_append, Text.byteLength_append] at hlength
  have hbreaks : above.count '\n' ≤ Text.byteLength above :=
    Nat.le_trans List.count_le_length (Text.length_le_byteLength above)
  have hword {n : Nat} (hn : n < 4294967296) : (UInt32.ofNat n).toNat = n :=
    UInt32.toNat_ofNat_of_lt' hn
  have hlineNo : (UInt32.ofNat (1 + above.count '\n')).toNat = 0 + 1 + above.count '\n' := by
    rw [hword (by omega), Nat.zero_add]
  have hcol : (UInt32.ofNat (1 + Text.byteLength line)).toNat = 1 + Text.byteLength line :=
    hword (by omega)
  have hpositive : UInt32.ofNat (1 + Text.byteLength line) ≠ 0 := by
    intro hzero
    rw [hzero] at hcol
    have : (0 : UInt32).toNat = 0 := rfl
    omega
  have hlen : (UInt32.ofNat (Text.byteLength word)).toNat = Text.byteLength word :=
    hword (by omega)
  have hlines : Text.fromLine? (0 + 1 + above.count '\n') text.toList =
      some (line ++ (word ++ after)) := by
    rw [h, List.append_assoc, List.append_assoc, hfrom, Text.fromLine?_one]
  have hinside : ¬ (UInt32.ofNat (1 + Text.byteLength line) = 0 ∨
      (Text.bytes (String.ofList (line ++ (word ++ after)))).length <
        1 + Text.byteLength line - 1 + Text.byteLength word) := by
    rw [Text.length_bytes_ofList, Text.byteLength_append, Text.byteLength_append, not_or]
    exact ⟨hpositive, by omega⟩
  rw [Place.span, hplace, Span.excerpt?]
  simp only [hlineNo, hlines, hcol, hlen]
  rw [if_neg hinside, Nat.add_sub_cancel_left, Text.bytes_ofList_append,
    List.drop_left' (Text.length_bytes_ofList line), Text.bytes_ofList_append,
    List.take_left' (Text.length_bytes_ofList word)]

/-! ## Tokens -/

namespace Token

theorem take_run (test : Char → Bool) (cs : List Char) :
    cs.take (run test cs) = cs.takeWhile test :=
  (List.prefix_iff_eq_take.1 (List.takeWhile_prefix test)).symm

/-- Identifiers and keywords. -/
def Kind.isWord : Kind → Bool
  | .identifier => true
  | .keyType => true
  | .keyExtends => true
  | .keyConst => true
  | .keySealed => true
  | .keyAbstract => true
  | .keyTrue => true
  | .keyFalse => true
  | _ => false

theorem Kind.isWord_of_startsItem {kind : Kind} (h : kind.startsItem = true) :
    kind.isWord = true := by
  cases kind <;> first | rfl | cases h

theorem isIdentContinue_of_start {c : Char} (h : isIdentStart c = true) :
    isIdentContinue c = true := by
  unfold isIdentStart at h
  unfold isIdentContinue Char.isAlphanum
  rcases Bool.or_eq_true_iff.1 h with h | h
  · simp [h]
  · simp [h]

theorem isWord_ofPunctuation? {c : Char} {kind : Kind}
    (h : Kind.ofPunctuation? c = some kind) : kind.isWord = false := by
  unfold Kind.ofPunctuation? at h
  split at h <;> cases h <;> rfl

theorem isWord_munchNumber {c : Char} {cs : List Char} {kind : Kind} :
    (munchNumber c cs).1 = .token kind → kind.isWord = false := by
  fun_cases munchNumber c cs with
  | case1 => exact nofun
  | case2 =>
    rintro ⟨⟩
    rfl
  | case3 =>
    rintro ⟨⟩
    rfl
  | case4 => exact nofun

/-- A word is made of letters, digits and underscores. -/
theorem isIdentContinue_of_munch {c : Char} {cs : List Char} {kind : Kind}
    (hword : kind.isWord = true) : (munch c cs).1 = .token kind →
      ∀ d ∈ c :: cs.take (munch c cs).2, isIdentContinue d = true := by
  fun_cases munch c cs with
  | case1 => exact nofun
  | case2 => exact nofun
  | case3 => exact nofun
  | case4 _ _ _ n closed =>
    cases closed with
    | true =>
      rintro ⟨⟩
      cases hword
    | false => exact nofun
  | case5 =>
    intro hnumber
    rw [isWord_munchNumber hnumber] at hword
    cases hword
  | case6 _ _ _ _ hstart n word =>
    intro _
    have hall : ∀ d ∈ cs.take n, isIdentContinue d = true := by
      intro d hd
      rw [take_run] at hd
      exact List.mem_takeWhile_imp hd
    exact List.forall_mem_cons.2 ⟨isIdentContinue_of_start hstart, hall⟩
  | case7 _ _ _ _ _ kind hkind =>
    rintro ⟨⟩
    rw [isWord_ofPunctuation? hkind] at hword
    cases hword
  | case8 => exact nofun

/-- A token among the characters it was cut from, with the place it was cut at. -/
structure CutAt (p : Place) (cs : List Char) (t : Token) (before after : List Char) : Prop where
  split : cs = before ++ t.lexeme.toList ++ after
  span : t.span = (p.advance before).span t.lexeme.toList
  word : t.kind.isWord = true →
    t.lexeme.toList ≠ [] ∧ ∀ c ∈ t.lexeme.toList, isIdentContinue c = true

theorem CutAt.after {p : Place} {cs ds before after : List Char} {t : Token}
    (h : CutAt (p.advance cs) ds t before after) : CutAt p (cs ++ ds) t (cs ++ before) after where
  split := by rw [h.split, List.append_assoc, List.append_assoc, List.append_assoc]
  span := by rw [Place.advance_append, h.span]
  word := h.word

/-- What is left after blanks and a piece, and what that makes of the whole. -/
theorem eq_take_append {cs rest : List Char} {c : Char} {blank : Nat}
    (h : cs.drop blank = c :: rest) (n : Nat) :
    cs = cs.take blank ++ (c :: rest.take n ++ rest.drop n) := by
  rw [List.cons_append, List.take_append_drop, ← h, List.take_append_drop]

/-- A token after blanks and a piece is cut from the whole. -/
theorem CutAt.afterPiece {p : Place} {cs rest before after : List Char} {c : Char} {blank n : Nat}
    {t : Token} (hrest : cs.drop blank = c :: rest)
    (h : CutAt ((p.advance (cs.take blank)).advance (c :: rest.take n)) (rest.drop n) t before
      after) :
    CutAt p cs t (cs.take blank ++ (c :: rest.take n ++ before)) after := by
  have hall := h.after.after
  rwa [← eq_take_append hrest n] at hall

/-- By induction along the scan: the characters before a token are those passed so far. -/
theorem exists_cutAt (p : Place) (cs : List Char) {t : Token} :
    .token t ∈ scan p cs → ∃ before after, CutAt p cs t before after := by
  fun_induction scan p cs with
  | case1 p cs blank q hrest =>
    intro ht
    cases List.mem_singleton.1 ht
    refine ⟨cs.take blank, [], ⟨?_, rfl, nofun⟩⟩
    have hall := List.take_append_drop blank cs
    rw [hrest] at hall
    simpa [endAt] using hall.symm
  | case2 p cs blank q c rest hrest n text next _ ih =>
    intro ht
    obtain ⟨before, after, hcut⟩ := ih ht
    exact ⟨_, after, hcut.afterPiece hrest⟩
  | case3 p cs blank q c rest hrest n text next kind hmunch ih =>
    intro ht
    rcases List.mem_cons.1 ht with ht | ht
    · cases ht
      refine ⟨cs.take blank, rest.drop n, ⟨?_, ?_, ?_⟩⟩
      · simpa [text] using eq_take_append hrest n
      · rw [String.toList_ofList]
      · intro hword
        have hall := isIdentContinue_of_munch hword (congrArg Prod.fst hmunch)
        rw [hmunch] at hall
        rw [String.toList_ofList]
        exact ⟨List.cons_ne_nil _ _, hall⟩
    · obtain ⟨before, after, hcut⟩ := ih ht
      exact ⟨_, after, hcut.afterPiece hrest⟩
  | case4 p cs blank q c rest hrest n text next cause _ ih =>
    intro ht
    rcases List.mem_cons.1 ht with ht | ht
    · cases ht
    · obtain ⟨before, after, hcut⟩ := ih ht
      exact ⟨_, after, hcut.afterPiece hrest⟩

/-- The span of a token points at its lexeme, if the counters have room for the whole source. -/
theorem excerpt?_of_mem_ofSource {source : String} {t : Token} (h : .token t ∈ ofSource source)
    (hlength : (Text.bytes source).length < 4294967295) :
    t.span.excerpt? source = some (Text.bytes t.lexeme) := by
  obtain ⟨before, after, hcut⟩ := exists_cutAt .start source.toList h
  rw [hcut.span, Place.excerpt?_span hcut.split hlength, String.ofList_toList]

end Token

end Linkage
