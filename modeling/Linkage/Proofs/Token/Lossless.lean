import Linkage.Proofs.Token.Joined

/-!
# Linkage.Proofs.Token.Lossless

Cutting a source into pieces loses nothing of it, and every piece is where its span says.

* `Skipped` — what may stand before a piece: white space, byte-order marks and whole comments.
* `Span.Covers` — what a span says about the text before a piece and the text of the piece.
* `Cut` — a text as pieces, with what is skipped before each of them.
* `Cursor.next` — the pieces one at a time; after the last one the end comes again and again.
* `lexing_lossless` — the pieces of a source are a cut of it, and they are what `Cursor.next` gives.
-/

namespace Linkage

/-! ## Places -/

/-- What follows the last line break. -/
def Text.lastLine (cs : List Char) : List Char := (cs.reverse.takeWhile (· ≠ '\n')).reverse

theorem Text.lastLine_break (cs : List Char) : lastLine (cs ++ ['\n']) = [] := by
  rw [lastLine, List.reverse_append, List.reverse_singleton, List.singleton_append,
    List.takeWhile_cons_of_neg (by simp), List.reverse_nil]

theorem Text.lastLine_concat (cs : List Char) {c : Char} (hc : c ≠ '\n') :
    lastLine (cs ++ [c]) = lastLine cs ++ [c] := by
  rw [lastLine, List.reverse_append, List.reverse_singleton, List.singleton_append,
    List.takeWhile_cons_of_pos (by simpa using hc), List.reverse_cons, lastLine]

theorem Text.byteLength_lastLine_le (cs : List Char) :
    byteLength (lastLine cs) ≤ byteLength cs := by
  obtain ⟨rest, hrest⟩ := List.takeWhile_prefix (p := (· ≠ '\n')) (l := cs.reverse)
  have hsplit : cs = rest.reverse ++ lastLine cs := by
    rw [lastLine, ← List.reverse_append, hrest, List.reverse_reverse]
  calc byteLength (lastLine cs) ≤ byteLength (rest.reverse ++ lastLine cs) := by
        rw [byteLength_append]
        exact Nat.le_add_left _ _
    _ = byteLength cs := by rw [← hsplit]

/--
After any text the line is one more than the line breaks in it, and the column one more than the
bytes after the last of them, both as words. By induction from the end.
-/
theorem Place.advance_start (cs : List Char) : Place.start.advance cs =
    ⟨UInt32.ofNat (1 + cs.count '\n'), UInt32.ofNat (1 + Text.byteLength (Text.lastLine cs))⟩ := by
  induction cs using List.reverseRecOn with
  | nil => rfl
  | append_singleton cs c ih =>
    rw [advance_append, ih]
    show Place.step _ c = _
    by_cases hc : c = '\n'
    · subst hc
      have hcount : (cs ++ ['\n']).count '\n' = cs.count '\n' + 1 := by simp
      rw [Text.lastLine_break, hcount, ← Nat.add_assoc, UInt32.ofNat_add _ 1]
      rfl
    · have hcount : (cs ++ [c]).count '\n' = cs.count '\n' := by
        rw [List.count_append, List.count_singleton, if_neg (by simpa using hc), Nat.add_zero]
      rw [Place.step, if_neg hc, Text.lastLine_concat cs hc, hcount, Text.byteLength_append,
        ← Nat.add_assoc, UInt32.ofNat_add _ (Text.byteLength [c])]
      rfl

/--
The span of this text where it stands after that: its line counts the line breaks before it and
its column the bytes since the last of them, both from 1, and its length counts its bytes.
-/
structure Span.Covers (s : Span) (before text : List Char) : Prop where
  line : s.line.toNat = 1 + before.count '\n'
  col : s.col.toNat = 1 + Text.byteLength (Text.lastLine before)
  len : s.len.toNat = Text.byteLength text

theorem Place.covers_span {before text : List Char}
    (h : Text.byteLength (before ++ text) < 4294967295) :
    ((Place.start.advance before).span text).Covers before text := by
  have hword {n : Nat} (hn : n < 4294967296) : (UInt32.ofNat n).toNat = n :=
    UInt32.toNat_ofNat_of_lt' hn
  have hline : before.count '\n' ≤ Text.byteLength before :=
    Nat.le_trans List.count_le_length (Text.length_le_byteLength before)
  have hcol := Text.byteLength_lastLine_le before
  rw [Text.byteLength_append] at h
  rw [advance_start]
  exact ⟨hword (by omega), hword (by omega), hword (by omega)⟩

namespace Token

/-! ## Between pieces -/

/--
White space, byte-order marks and whole comments, as they stand before what follows them. A line
comment is whole when it reaches the end of its line, and a block comment when it ends with the
first mark that closes it.
-/
inductive Skipped : List Char → List Char → Prop where
  | nothing {rest : List Char} : Skipped [] rest
  | blank {c : Char} {cs rest : List Char} :
      Text.isBlankChar c = true → Skipped cs rest → Skipped (c :: cs) rest
  | mark {cs rest : List Char} : Skipped cs rest → Skipped ('\ufeff' :: cs) rest
  | line {text cs rest : List Char} :
      '\n' ∉ text → (∀ c, (cs ++ rest).head? = some c → c = '\n') → Skipped cs rest →
      Skipped ('/' :: '/' :: (text ++ cs)) rest
  | block {text cs rest : List Char} :
      ¬ ['*', '/'] <:+: text ++ ['*'] → Skipped cs rest →
      Skipped ('/' :: '*' :: (text ++ '*' :: '/' :: cs)) rest

theorem Skipped.append {cs ds rest : List Char} (h : Skipped cs (ds ++ rest))
    (hds : Skipped ds rest) : Skipped (cs ++ ds) rest := by
  generalize hall : ds ++ rest = all at h
  induction h with
  | nothing => exact hds
  | blank hc _ ih => exact .blank hc (ih hall)
  | mark _ ih => exact .mark (ih hall)
  | @line text cs _ htext hbreak _ ih =>
    subst hall
    rw [List.cons_append, List.cons_append, List.append_assoc]
    exact .line htext (by rwa [List.append_assoc]) (ih rfl)
  | @block text cs _ htext _ ih =>
    subst hall
    rw [List.cons_append, List.cons_append, List.append_assoc]
    exact .block htext (ih rfl)

theorem skipped_of_all {cs : List Char} (h : ∀ c ∈ cs, Text.isBlankChar c = true)
    (rest : List Char) : Skipped cs rest := by
  induction cs with
  | nil => exact .nothing
  | cons c cs ih =>
    rw [List.forall_mem_cons] at h
    exact .blank h.1 (ih h.2)

theorem skipped_run (cs rest : List Char) :
    Skipped (cs.take (run Text.isBlankChar cs)) rest := by
  rw [take_run]
  exact skipped_of_all (fun _ hc => List.mem_takeWhile_imp hc) rest

theorem skipped_blank (cs rest : List Char) : Skipped (cs.take (blankLength cs)) rest := by
  fun_cases blankLength cs with
  | case1 cs =>
    rw [Nat.add_comm, List.take_succ_cons]
    exact .mark (skipped_run cs rest)
  | case2 cs => exact skipped_run cs rest

/-- By induction along the text: the first mark is the one that closes the comment. -/
theorem exists_of_commentLength {cs : List Char} {n : Nat} : commentLength cs = some n →
    ∃ text, cs.take n = text ++ ['*', '/'] ∧ ¬ ['*', '/'] <:+: text ++ ['*'] := by
  fun_induction commentLength cs generalizing n with
  | case1 cs =>
    rintro ⟨⟩
    exact ⟨[], rfl, fun h => absurd h.length_le (by decide)⟩
  | case2 c cs hopen ih =>
    intro h
    obtain ⟨m, hm, rfl⟩ := Option.map_eq_some_iff.1 h
    obtain ⟨text, htake, hfirst⟩ := ih hm
    refine ⟨c :: text, by rw [List.take_succ_cons, htake, List.cons_append], fun hinfix => ?_⟩
    rcases List.infix_cons_iff.1 hinfix with hprefix | hinfix
    · obtain ⟨rfl, hmark⟩ := List.cons_prefix_cons.1 hprefix
      -- A mark at the very front would have been found before.
      cases text with
      | nil => exact absurd hmark (by decide)
      | cons d text =>
        obtain ⟨hslash, -⟩ := List.cons_prefix_cons.1 hmark
        cases cs with
        | nil => cases hm
        | cons e cs =>
          cases m with
          | zero => cases htake
          | succ m =>
            rw [List.take_succ_cons, List.cons_append, List.cons.injEq, ← hslash] at htake
            exact hopen cs rfl (by rw [htake.1])
    · exact hfirst hinfix
  | case3 =>
    intro h
    cases h

/-- A line comment stops before a line break or at the end. -/
theorem head_drop_run {cs : List Char} {c : Char} :
    (cs.drop (run (· ≠ '\n') cs)).head? = some c → c = '\n' := by
  induction cs with
  | nil =>
    intro h
    cases h
  | cons d cs ih =>
    by_cases hd : d = '\n'
    · rw [run, List.takeWhile_cons_of_neg (by simpa using hd)]
      rintro ⟨⟩
      exact hd
    · rw [run, List.takeWhile_cons_of_pos (by simpa using hd)]
      exact ih

theorem skipped_of_comment {c : Char} {cs : List Char} : (munch c cs).1 = .comment →
    Skipped (c :: cs.take (munch c cs).2) (cs.drop (munch c cs).2) := by
  fun_cases munch c cs with
  | case1 hline =>
    intro _
    obtain ⟨rfl, hslash⟩ := hline
    obtain ⟨ds, rfl⟩ := List.head?_eq_some_iff.1 hslash
    have hrun : run (· ≠ '\n') ('/' :: ds) = run (· ≠ '\n') ds + 1 := by
      rw [run, List.takeWhile_cons_of_pos (by decide)]
      rfl
    have hskip : Skipped ('/' :: '/' :: (ds.takeWhile (· ≠ '\n') ++ []))
        (ds.drop (run (· ≠ '\n') ds)) := by
      refine .line (fun h => ?_) (fun d hd => head_drop_run hd) .nothing
      exact absurd (List.mem_takeWhile_imp h) (by decide)
    dsimp only
    rwa [hrun, List.take_succ_cons, List.drop_succ_cons, take_run,
      ← List.append_nil (List.takeWhile _ _)]
  | case2 hline hopen n hn =>
    intro _
    obtain ⟨rfl, hstar⟩ := hopen
    obtain ⟨ds, rfl⟩ := List.head?_eq_some_iff.1 hstar
    obtain ⟨text, htake, hfirst⟩ := exists_of_commentLength hn
    rw [List.tail_cons] at htake
    have hskip : Skipped ('/' :: '*' :: (text ++ '*' :: '/' :: [])) (ds.drop n) :=
      .block hfirst .nothing
    dsimp only
    rwa [List.take_succ_cons, List.drop_succ_cons, htake]
  | case3 =>
    intro h
    cases h
  | case4 _ _ _ n closed =>
    intro h
    cases closed <;> cases h
  | case5 => exact fun h => absurd h (munchNumber_ne_comment c cs)
  | case6 =>
    intro h
    cases h
  | case7 =>
    intro h
    cases h
  | case8 =>
    intro h
    cases h

/-! ## Pieces -/

/--
A text as pieces and the end. Before each piece and before the end something may be skipped. What
stands before the whole text counts for the places.
-/
inductive Cut : List Char → List Char → List Piece → Token → Prop where
  | done {before gap : List Char} {last : Token} :
      Skipped gap [] → last.kind = .eof → last.lexeme = "" →
      last.span.Covers (before ++ gap) [] → Cut before gap [] last
  | token {before gap after : List Char} {t last : Token} {pieces : List Piece} :
      Skipped gap (t.lexeme.toList ++ after) → t.kind ≠ .eof → t.lexeme.toList ≠ [] →
      t.span.Covers (before ++ gap) t.lexeme.toList →
      Cut (before ++ gap ++ t.lexeme.toList) after pieces last →
      Cut before (gap ++ t.lexeme.toList ++ after) (.token t :: pieces) last
  | error {before gap text after : List Char} {e : LexError} {last : Token}
      {pieces : List Piece} :
      Skipped gap (text ++ after) → text ≠ [] → e.span.Covers (before ++ gap) text →
      Cut (before ++ gap ++ text) after pieces last →
      Cut before (gap ++ text ++ after) (.error e :: pieces) last

theorem Cut.ofText {before gap text after : List Char} {kind : Kind} {span : Span} {last : Token}
    {pieces : List Piece} (hgap : Skipped gap (text ++ after)) (hkind : kind ≠ .eof)
    (hne : text ≠ []) (hspan : span.Covers (before ++ gap) text)
    (h : Cut (before ++ gap ++ text) after pieces last) :
    Cut before (gap ++ text ++ after) (.token ⟨kind, String.ofList text, span⟩ :: pieces) last := by
  obtain ⟨lexeme, rfl⟩ : ∃ lexeme : String, lexeme.toList = text :=
    ⟨String.ofList text, String.toList_ofList⟩
  rw [String.ofList_toList]
  exact .token (t := ⟨kind, lexeme, span⟩) hgap hkind hne hspan h

/-- What is skipped in front of a text is skipped before its first piece. -/
theorem Cut.skip {before gap text : List Char} {pieces : List Piece} {last : Token}
    (hgap : Skipped gap text) (h : Cut (before ++ gap) text pieces last) :
    Cut before (gap ++ text) pieces last := by
  cases h with
  | done hskip hkind hlexeme hcovers =>
    rw [List.append_assoc] at hcovers
    exact .done (Skipped.append (by rwa [List.append_nil]) hskip) hkind hlexeme hcovers
  | token hskip hkind hne hcovers hrest =>
    rw [List.append_assoc before] at hcovers hrest
    rw [List.append_assoc] at hgap
    rw [← List.append_assoc, ← List.append_assoc]
    exact .token (hgap.append hskip) hkind hne hcovers hrest
  | error hskip hne hcovers hrest =>
    rw [List.append_assoc before] at hcovers hrest
    rw [List.append_assoc] at hgap
    rw [← List.append_assoc, ← List.append_assoc]
    exact .error (hgap.append hskip) hne hcovers hrest

section

variable {before cs rest : List Char} {c : Char} {blank : Nat}

theorem byteLength_after (hrest : cs.drop blank = c :: rest) (n : Nat)
    (h : Text.byteLength (before ++ cs) < 4294967295) :
    Text.byteLength (before ++ cs.take blank ++ (c :: rest.take n) ++ rest.drop n) <
      4294967295 := by
  rwa [List.append_assoc, List.append_assoc, ← eq_take_append hrest n]

theorem covers_piece (hrest : cs.drop blank = c :: rest) (n : Nat)
    (h : Text.byteLength (before ++ cs) < 4294967295) :
    (((Place.start.advance before).advance (cs.take blank)).span (c :: rest.take n)).Covers
      (before ++ cs.take blank) (c :: rest.take n) := by
  have hroom := byteLength_after hrest n h
  rw [Text.byteLength_append] at hroom
  rw [← Place.advance_append]
  exact Place.covers_span (by omega)

end

/-- By induction along the scan; all that was passed before is in front of the text. -/
theorem exists_cut (p : Place) (cs : List Char) : ∀ before,
    Text.byteLength (before ++ cs) < 4294967295 → p = Place.start.advance before →
    ∃ pieces last, scan p cs = pieces ++ [.token last] ∧ Cut before cs pieces last := by
  fun_induction scan p cs with
  | case1 p cs blank q hrest =>
    rintro before hlength rfl
    have hall : cs.take blank = cs := List.take_of_length_le (List.drop_eq_nil_iff.1 hrest)
    have hgap : Skipped cs [] := hall ▸ skipped_blank cs []
    have hq : q = Place.start.advance (before ++ cs) := by
      rw [Place.advance_append, ← congrArg (Place.advance _) hall]
    have hcovers : (q.span []).Covers (before ++ cs) [] := by
      rw [hq]
      exact Place.covers_span (by rwa [List.append_nil])
    exact ⟨[], _, rfl, .done hgap rfl rfl hcovers⟩
  | case2 p cs blank q c rest hrest n text next hmunch ih =>
    rintro before hlength rfl
    have hcomment : Skipped (c :: rest.take n) (rest.drop n) := by
      have hskip := skipped_of_comment (congrArg Prod.fst hmunch)
      rwa [hmunch] at hskip
    obtain ⟨pieces, last, hscan, hcut⟩ := ih (before ++ cs.take blank ++ text)
      (byteLength_after hrest n hlength) (by rw [Place.advance_append, Place.advance_append])
    refine ⟨pieces, last, hscan, ?_⟩
    rw [eq_take_append hrest n, ← List.append_assoc]
    refine Cut.skip ((skipped_blank cs _).append hcomment) ?_
    rwa [← List.append_assoc]
  | case3 p cs blank q c rest hrest n text next kind hmunch ih =>
    rintro before hlength rfl
    obtain ⟨pieces, last, hscan, hcut⟩ := ih (before ++ cs.take blank ++ text)
      (byteLength_after hrest n hlength) (by rw [Place.advance_append, Place.advance_append])
    refine ⟨_ :: pieces, last, congrArg _ hscan, ?_⟩
    have hcovers : (q.span text).Covers (before ++ cs.take blank) text :=
      covers_piece hrest n hlength
    have hpiece := Cut.ofText (skipped_blank cs _) (munch_ne_eof (congrArg Prod.fst hmunch))
      (List.cons_ne_nil _ _) hcovers hcut
    rwa [List.append_assoc, ← eq_take_append hrest n] at hpiece
  | case4 p cs blank q c rest hrest n text next cause hmunch ih =>
    rintro before hlength rfl
    obtain ⟨pieces, last, hscan, hcut⟩ := ih (before ++ cs.take blank ++ text)
      (byteLength_after hrest n hlength) (by rw [Place.advance_append, Place.advance_append])
    refine ⟨_ :: pieces, last, congrArg _ hscan, ?_⟩
    have hcovers : (q.span text).Covers (before ++ cs.take blank) text :=
      covers_piece hrest n hlength
    have hpiece := Cut.error (e := ⟨cause, q.span text⟩) (skipped_blank cs _)
      (List.cons_ne_nil _ _) hcovers hcut
    rwa [List.append_assoc, ← eq_take_append hrest n] at hpiece

theorem exists_cut_ofSource {source : String} (h : (Text.bytes source).length < 4294967295) :
    ∃ pieces last, ofSource source = pieces ++ [.token last] ∧
      Cut [] source.toList pieces last := by
  have hlength : Text.byteLength ([] ++ source.toList) < 4294967295 := by
    rwa [← String.ofList_toList (s := source), Text.length_bytes_ofList] at h
  exact exists_cut .start source.toList [] hlength rfl

/-! ## One piece at a time -/

/-- Where the next piece is looked for: a place and the characters from there on. -/
structure Cursor where
  place : Place
  rest : List Char

namespace Cursor

def start (source : String) : Cursor := ⟨.start, source.toList⟩

/-- The next piece and where to go on after it. At the end it is the end, from then on always. -/
def next (s : Cursor) : Piece × Cursor :=
  let blank := blankLength s.rest
  let p := s.place.advance (s.rest.take blank)
  match _h : s.rest.drop blank with
  | [] => (.token (.endAt p.line p.col), ⟨p, []⟩)
  | c :: rest =>
    let (found, n) := munch c rest
    let text := c :: rest.take n
    let after : Cursor := ⟨p.advance text, rest.drop n⟩
    match found with
    | .comment => after.next
    | .token kind => (.token ⟨kind, String.ofList text, p.span text⟩, after)
    | .error cause => (.error ⟨cause, p.span text⟩, after)
termination_by s.rest.length
decreasing_by
  have := congrArg List.length _h
  simp only [List.length_drop, List.length_cons] at this ⊢
  omega

/-- The piece that comes when this many have been taken before. -/
def call : Nat → Cursor → Piece
  | 0, s => s.next.1
  | n + 1, s => s.next.2.call n

theorem next_end (p : Place) : next ⟨p, []⟩ = (.token (.endAt p.line p.col), ⟨p, []⟩) := by
  rw [next]
  rfl

/--
A scan that has only the end left and one that has more. By induction along the comments that are
passed over.
-/
theorem scan_cases (s : Cursor) :
    (∃ p : Place, scan s.place s.rest = [.token (.endAt p.line p.col)] ∧
      s.next = (.token (.endAt p.line p.col), ⟨p, []⟩)) ∨
    ∃ t, s.next.2 = t ∧ scan s.place s.rest = s.next.1 :: scan t.place t.rest := by
  fun_induction next s with
  | case1 s blank p hrest => exact .inl ⟨p, scan_end hrest, rfl⟩
  | case2 s blank p c rest hrest n text after hmunch ih =>
    rw [scan_step hrest, hmunch]
    exact ih
  | case3 s blank p c rest hrest n text after kind hmunch =>
    rw [scan_step hrest, hmunch]
    exact .inr ⟨after, rfl, rfl⟩
  | case4 s blank p c rest hrest n text after cause hmunch =>
    rw [scan_step hrest, hmunch]
    exact .inr ⟨after, rfl, rfl⟩

theorem call_end (p : Place) (n : Nat) : call n ⟨p, []⟩ = .token (.endAt p.line p.col) := by
  induction n with
  | zero => rw [call, next_end]
  | succ n ih => rw [call, next_end, ih]

/-- By induction on the pieces that are left. -/
theorem call_eq {pieces : List Piece} {last : Token} : ∀ {s : Cursor},
    scan s.place s.rest = pieces ++ [.token last] →
    ∀ n, s.call n = pieces[n]?.getD (.token last) := by
  induction pieces with
  | nil =>
    intro s hscan n
    rcases s.scan_cases with ⟨p, hend, hnext⟩ | ⟨t, -, hmore⟩
    · rw [hend] at hscan
      cases hscan
      cases n with
      | zero => rw [call, hnext]; rfl
      | succ n => rw [call, hnext, call_end]; rfl
    · rw [hmore] at hscan
      exact absurd (List.cons.inj hscan).2 (endsOnce_scan _ _).ne_nil
  | cons piece pieces ih =>
    intro s hscan n
    rcases s.scan_cases with ⟨p, hend, hnext⟩ | ⟨t, ht, hmore⟩
    · rw [hend] at hscan
      simp at hscan
    · rw [hmore, List.cons_append, List.cons.injEq] at hscan
      cases n with
      | zero => exact hscan.1
      | succ n =>
        rw [call, ht, ih hscan.2]
        rfl

end Cursor

/--
The pieces of a source cover it in order, with nothing between them but what is skipped, and each
of them is where its span says. Taken one at a time they are the same, and after them the end comes
as often as it is asked for.
-/
theorem lexing_lossless (source : String) (h : (Text.bytes source).length < 4294967295) :
    ∃ pieces last, ofSource source = pieces ++ [.token last] ∧
      Cut [] source.toList pieces last ∧
      ∀ n, (Cursor.start source).call n = pieces[n]?.getD (.token last) := by
  obtain ⟨pieces, last, hscan, hcut⟩ := exists_cut_ofSource h
  exact ⟨pieces, last, hscan, hcut, Cursor.call_eq hscan⟩

/-! ### A mark, a comment between two pieces, and errors of three kinds -/

def mixed : String := "\ufeffconst É/* ∀ */\n\"é\\\"\" 7x// a\n/* b"

def mixedPieces : List Piece :=
  [.token ⟨.keyConst, "const", ⟨1, 4, 5⟩⟩,
    .error ⟨.unexpectedChar 'É', ⟨1, 10, 2⟩⟩,
    .token ⟨.stringLiteral, "\"é\\\"\"", ⟨2, 1, 6⟩⟩,
    .error ⟨.numberSuffix "x", ⟨2, 8, 2⟩⟩,
    .error ⟨.unterminatedComment, ⟨3, 1, 4⟩⟩]

theorem lexing_lossless_mixed :
    Cut [] mixed.toList mixedPieces (.endAt 3 5) ∧
      ∀ n, (Cursor.start mixed).call n = mixedPieces[n]?.getD (.token (.endAt 3 5)) := by
  obtain ⟨pieces, last, hpieces, hcut, hcall⟩ := lexing_lossless mixed (by decide +kernel)
  have hscan : ofSource mixed = mixedPieces ++ [.token (.endAt 3 5)] := by
    decide +kernel
  obtain ⟨rfl, hlast⟩ := List.append_inj' (hpieces.symm.trans hscan) rfl
  obtain rfl := Piece.token.inj (List.cons.inj hlast).1
  exact ⟨hcut, hcall⟩

end Token
end Linkage
