import Linkage.Proofs.Token.Ahead
import Linkage.Proofs.Token.Places
import Linkage.Proofs.Script.Stream
import Mathlib.Data.List.Forall2

/-!
# Linkage.Proofs.Token.Joined

The pieces of two sources with a line break between them.

* `Token.Alike`, `Piece.Alike` — the same but for the span.
* `scan_alike` — the same text has alike pieces wherever it stands.
* `munch_append` — a line break ends whatever was being cut, unless that was an error.
* `scan_append` — after a source without errors and a line break the scan goes on from its start.
-/

namespace Linkage

/-! ## Up to spans -/

/-- The same kind and the same text. -/
structure Token.Alike (t u : Token) : Prop where
  kind : t.kind = u.kind
  lexeme : t.lexeme = u.lexeme

inductive Piece.Alike : Piece → Piece → Prop where
  | token {t u : Token} : t.Alike u → Piece.Alike (.token t) (.token u)
  | error {e f : LexError} : e.cause = f.cause → Piece.Alike (.error e) (.error f)

namespace Token

theorem scan_end {p : Place} {cs : List Char} (h : cs.drop (blankLength cs) = []) :
    scan p cs = [.token (.endAt (p.advance (cs.take (blankLength cs))).line
      (p.advance (cs.take (blankLength cs))).col)] := by
  rw [scan]
  split
  · rfl
  · rename_i hrest
    rw [h] at hrest
    cases hrest

/-- The pieces from a place on where these characters are cut off first. -/
def Munch.pieces (p : Place) (text : List Char) (next : Place → List Piece) : Munch → List Piece
  | .comment => next (p.advance text)
  | .token kind => .token ⟨kind, String.ofList text, p.span text⟩ :: next (p.advance text)
  | .error cause => .error ⟨cause, p.span text⟩ :: next (p.advance text)

theorem scan_step {p : Place} {cs rest : List Char} {c : Char}
    (h : cs.drop (blankLength cs) = c :: rest) :
    scan p cs = (munch c rest).1.pieces (p.advance (cs.take (blankLength cs)))
      (c :: rest.take (munch c rest).2) (scan · (rest.drop (munch c rest).2)) := by
  rw [scan]
  split
  · rename_i hrest
    rw [h] at hrest
    cases hrest
  · rename_i hrest
    rw [h] at hrest
    obtain ⟨rfl, rfl⟩ := List.cons.inj hrest
    rfl

/-- By induction along the scan: what is cut off depends on the characters only. -/
theorem scan_alike (p q : Place) (cs : List Char) :
    List.Forall₂ Piece.Alike (scan p cs) (scan q cs) := by
  fun_induction scan p cs generalizing q with
  | case1 p cs blank p' hrest =>
    rw [scan_end hrest]
    exact .cons (.token ⟨rfl, rfl⟩) .nil
  | case2 p cs blank p' c rest hrest n text next hmunch ih =>
    rw [scan_step hrest, hmunch]
    exact ih _
  | case3 p cs blank p' c rest hrest n text next kind hmunch ih =>
    rw [scan_step hrest, hmunch]
    exact .cons (.token ⟨rfl, rfl⟩) (ih _)
  | case4 p cs blank p' c rest hrest n text next cause hmunch ih =>
    rw [scan_step hrest, hmunch]
    exact .cons (.error rfl) (ih _)

/-! ## A line break after it -/

theorem commentLength_append (es : List Char) {cs : List Char} {n : Nat} :
    commentLength cs = some n → commentLength (cs ++ es) = some n := by
  fun_induction commentLength cs generalizing n with
  | case1 cs =>
    rintro ⟨⟩
    rfl
  | case2 d cs hopen ih =>
    intro h
    obtain ⟨m, hm, rfl⟩ := Option.map_eq_some_iff.1 h
    rw [List.cons_append, commentLength, ih hm]
    · rfl
    · rintro ds rfl hds
      cases cs with
      | nil => cases hm
      | cons e cs =>
        obtain ⟨rfl, -⟩ := List.cons.inj hds
        exact hopen cs rfl rfl
  | case3 => exact nofun

theorem munchNumber_ne_comment (c : Char) (cs : List Char) : (munchNumber c cs).1 ≠ .comment := by
  fun_cases munchNumber c cs <;> rintro ⟨⟩

theorem munch_append_comment {c : Char} {cs : List Char} (es : List Char) :
    (munch c cs).1 = .comment → munch c (cs ++ '\n' :: es) = munch c cs := by
  fun_cases munch c cs with
  | case1 hopen =>
    intro _
    obtain ⟨ds, rfl⟩ := List.head?_eq_some_iff.1 hopen.2
    have hrun : run (· ≠ '\n') ('/' :: ds ++ '\n' :: es) = run (· ≠ '\n') ('/' :: ds) := by
      unfold run
      rw [List.takeWhile_append]
      split
      · rename_i hall
        rw [List.takeWhile_cons_of_neg (a := '\n') (by decide), List.append_nil, hall]
      · rfl
    rw [munch, if_pos ⟨hopen.1, rfl⟩, hrun]
  | case2 hline hopen n hn =>
    intro _
    obtain ⟨ds, rfl⟩ := List.head?_eq_some_iff.1 hopen.2
    have hclose := commentLength_append ('\n' :: es) hn
    rw [List.tail_cons] at hclose
    rw [munch, if_neg (fun h => absurd h.2 (by simp)), if_pos ⟨hopen.1, rfl⟩, List.cons_append,
      List.tail_cons, hclose]
  | case4 _ _ _ n closed => cases closed <;> rintro ⟨⟩
  | case5 => exact fun h => absurd h (munchNumber_ne_comment c cs)
  | _ => rintro ⟨⟩

/-- What begins with a character is not changed by a line break after it, if it is no error. -/
theorem munch_append {c : Char} {cs : List Char} (es : List Char)
    (hok : ∀ cause, (munch c cs).1 ≠ .error cause) : munch c (cs ++ '\n' :: es) = munch c cs := by
  cases hfound : (munch c cs).1 with
  | comment => exact munch_append_comment es hfound
  | token kind =>
    have hsame := munch_take_append (breaks_cons (c := '\n') rfl es) hfound (munch_le c cs)
    rwa [List.take_length] at hsame
  | error cause => exact absurd hfound (hok cause)

/-! ## Scans -/

theorem run_append_of_lt {test : Char → Bool} {cs : List Char} (h : run test cs < cs.length)
    (es : List Char) : run test (cs ++ es) = run test cs := by
  have hne : (cs.takeWhile test).length ≠ cs.length := Nat.ne_of_lt h
  rw [run, List.takeWhile_append, if_neg hne]
  rfl

theorem run_append_of_eq {test : Char → Bool} {cs : List Char} (h : run test cs = cs.length)
    (es : List Char) : run test (cs ++ es) = cs.length + run test es := by
  have heq : (cs.takeWhile test).length = cs.length := h
  rw [run, List.takeWhile_append, if_pos heq, List.length_append]
  rfl

theorem blankLength_of_ne {c : Char} (h : c ≠ '\ufeff') (cs : List Char) :
    blankLength (c :: cs) = run Text.isBlankChar (c :: cs) := by
  rw [blankLength]
  rintro cs' heq
  exact h (List.cons.inj heq).1

theorem blankLength_le (cs : List Char) : blankLength cs ≤ cs.length := by
  fun_cases blankLength cs with
  | case1 cs =>
    have := run_le Text.isBlankChar cs
    rw [List.length_cons]
    omega
  | case2 cs => exact run_le _ cs

/-- Blanks before a piece are the same with more text after it. -/
theorem blankLength_append_of_lt {cs : List Char} (h : blankLength cs < cs.length)
    (es : List Char) : blankLength (cs ++ es) = blankLength cs := by
  cases cs with
  | nil => cases h
  | cons c cs =>
    by_cases hc : c = '\ufeff'
    · subst hc
      have hlt : run Text.isBlankChar cs < cs.length := by
        rw [List.length_cons, blankLength] at h
        omega
      rw [List.cons_append, blankLength, blankLength, run_append_of_lt hlt]
    · rw [blankLength_of_ne hc] at h
      rw [List.cons_append, blankLength_of_ne hc, blankLength_of_ne hc, ← List.cons_append,
        run_append_of_lt h]

/-- Where there are only blanks, a line break after them is one more. -/
theorem blankLength_append_of_eq {cs : List Char} (h : blankLength cs = cs.length)
    (es : List Char) : blankLength (cs ++ '\n' :: es) = cs.length + blankLength ('\n' :: es) := by
  rw [blankLength_of_ne (by decide)]
  cases cs with
  | nil => simp [blankLength_of_ne]
  | cons c cs =>
    by_cases hc : c = '\ufeff'
    · subst hc
      have heq : run Text.isBlankChar cs = cs.length := by
        rw [List.length_cons, blankLength] at h
        omega
      rw [List.cons_append, blankLength, run_append_of_eq heq, List.length_cons]
      omega
    · rw [blankLength_of_ne hc] at h
      rw [List.cons_append, blankLength_of_ne hc, ← List.cons_append, run_append_of_eq h]

/-- Blanks can be skipped in one go with the blanks after them. -/
theorem scan_blank {p : Place} {cs es : List Char}
    (h : blankLength (cs ++ es) = cs.length + blankLength es) :
    scan p (cs ++ es) = scan (p.advance cs) es := by
  have hdrop : (cs ++ es).drop (blankLength (cs ++ es)) = es.drop (blankLength es) := by
    rw [h, List.drop_length_add_append]
  have htake : p.advance ((cs ++ es).take (blankLength (cs ++ es))) =
      (p.advance cs).advance (es.take (blankLength es)) := by
    rw [h, List.take_length_add_append, Place.advance_append]
  cases hrest : es.drop (blankLength es) with
  | nil => rw [scan_end (hdrop.trans hrest), scan_end hrest, htake]
  | cons c rest => rw [scan_step (hdrop.trans hrest), scan_step hrest, htake]

/-- What is cut off first is the same with a line break and more text at the end. -/
theorem scan_step_append {p : Place} {cs rest : List Char} {c : Char}
    (h : cs.drop (blankLength cs) = c :: rest) (hok : ∀ cause, (munch c rest).1 ≠ .error cause)
    (es : List Char) :
    scan p (cs ++ '\n' :: es) = (munch c rest).1.pieces (p.advance (cs.take (blankLength cs)))
      (c :: rest.take (munch c rest).2) (scan · (rest.drop (munch c rest).2 ++ '\n' :: es)) := by
  have hlt : blankLength cs < cs.length := by
    have := congrArg List.length h
    rw [List.length_drop, List.length_cons] at this
    omega
  have hblank := blankLength_append_of_lt hlt ('\n' :: es)
  have hdrop : (cs ++ '\n' :: es).drop (blankLength (cs ++ '\n' :: es)) =
      c :: (rest ++ '\n' :: es) := by
    rw [hblank, List.drop_append_of_le_length hlt.le, h]
    rfl
  have hle := munch_le c rest
  rw [scan_step hdrop, munch_append es hok, hblank, List.take_append_of_le_length hlt.le,
    List.take_append_of_le_length hle, List.drop_append_of_le_length hle]

/--
After a source without errors and a line break the scan goes on as from the line break. By
induction along the scan of the source.
-/
theorem scan_append (p : Place) (cs es : List Char) {line col : UInt32} :
    ∀ {ts : List Token}, scan p cs = (ts ++ [Token.endAt line col]).map .token →
      ∃ q, scan p (cs ++ '\n' :: es) = ts.map .token ++ scan q ('\n' :: es) := by
  fun_induction scan p cs with
  | case1 p cs blank =>
    rename_i hrest
    intro ts hts
    cases ts with
    | nil =>
      have hall : blankLength cs = cs.length :=
        Nat.le_antisymm (blankLength_le cs) (List.drop_eq_nil_iff.1 hrest)
      exact ⟨p.advance cs, scan_blank (blankLength_append_of_eq hall es)⟩
    | cons t ts => simp at hts
  | case2 p cs blank q c rest =>
    rename_i hrest n text next hmunch ih
    intro ts hts
    obtain ⟨q', hq'⟩ := ih hts
    refine ⟨q', ?_⟩
    rw [scan_step_append hrest (by simp [hmunch]), hmunch]
    exact hq'
  | case3 p cs blank q c rest =>
    rename_i hrest n text next kind hmunch ih
    intro ts hts
    cases ts with
    | nil => exact absurd (List.cons.inj hts).2 (endsOnce_scan _ _).ne_nil
    | cons t ts =>
      rw [List.cons_append, List.map_cons, List.cons.injEq, Piece.token.injEq] at hts
      obtain ⟨rfl, hts⟩ := hts
      obtain ⟨q', hq'⟩ := ih hts
      refine ⟨q', ?_⟩
      rw [scan_step_append hrest (by simp [hmunch]), hmunch, List.map_cons,
        List.cons_append, ← hq']
      rfl
  | case4 p cs blank q c rest =>
    rename_i hrest n text next cause hmunch ih
    intro ts hts
    cases ts with
    | nil => cases hts
    | cons t ts => cases hts

/-- White space before a text makes no difference but to places, unless a mark comes first. -/
theorem scan_blank_cons (p : Place) {b : Char} (hb : Text.isBlankChar b = true) {cs : List Char}
    (h : cs.head? ≠ some '\ufeff') : scan p (b :: cs) = scan (p.step b) cs := by
  have hmark : b ≠ '\ufeff' := by
    rintro rfl
    cases hb
  have hblank : run Text.isBlankChar cs = blankLength cs := by
    cases cs with
    | nil => rfl
    | cons c cs => rw [blankLength_of_ne (fun hc => h (congrArg some hc))]
  have hlength : blankLength ([b] ++ cs) = [b].length + blankLength cs := by
    rw [List.singleton_append, blankLength_of_ne hmark, ← hblank, run, run,
      List.takeWhile_cons_of_pos hb, List.length_cons, List.length_singleton, Nat.add_comm]
  exact scan_blank hlength

/-! ## Sources -/

theorem exists_alike {ts : List Token} {pieces : List Piece}
    (h : List.Forall₂ Piece.Alike (ts.map .token) pieces) :
    ∃ us : List Token, pieces = us.map .token ∧ List.Forall₂ Alike ts us := by
  induction ts generalizing pieces with
  | nil =>
    cases h
    exact ⟨[], rfl, .nil⟩
  | cons t ts ih =>
    cases h with
    | cons hfirst hrest =>
      cases hfirst with
      | token hu =>
        obtain ⟨us, rfl, hus⟩ := ih hrest
        exact ⟨_ :: us, rfl, .cons hu hus⟩

theorem exists_alike_concat {ts us : List Token} {t : Token}
    (h : List.Forall₂ Alike (ts ++ [t]) us) :
    ∃ vs v, us = vs ++ [v] ∧ List.Forall₂ Alike ts vs ∧ t.Alike v := by
  induction ts generalizing us with
  | nil =>
    cases h with
    | cons ht hnil =>
      cases hnil
      exact ⟨[], _, rfl, .nil, ht⟩
  | cons x ts ih =>
    cases h with
    | cons hx hrest =>
      obtain ⟨vs, v, rfl, hvs, hv⟩ := ih hrest
      exact ⟨_ :: vs, v, rfl, .cons hx hvs, hv⟩

/-- A source that starts with a word does not start with a byte-order mark. -/
theorem head_of_word {source : String} {u : Token} (h : .token u ∈ ofSource source)
    (hword : u.kind.isWord = true) (hfirst : u.lexeme.toList <+: source.toList) :
    source.toList.head? ≠ some '\ufeff' := by
  intro hmark
  obtain ⟨before, after, hcut⟩ := exists_cutAt .start source.toList h
  obtain ⟨hne, hall⟩ := hcut.word hword
  obtain ⟨rest, hrest⟩ := hfirst
  obtain ⟨c, cs, hcs⟩ := List.exists_cons_of_ne_nil hne
  rw [← hrest, hcs, List.cons_append, List.head?_cons, Option.some_inj] at hmark
  have hc := hall c (hcs ▸ List.mem_cons_self)
  rw [hmark] at hc
  exact absurd hc (by decide)

/--
The tokens of two sources with a line break between them are those of the first one and, up to
spans, those of the second one, if that starts with a word.
-/
theorem ofSource_append {s₁ s₂ : String} {ts us : List Token} {u : Token} {line col : UInt32}
    (h₁ : ofSource s₁ = (ts ++ [Token.endAt line col]).map .token)
    (h₂ : ofSource s₂ = (u :: us).map .token) (hword : u.kind.isWord = true)
    (hfirst : u.lexeme.toList <+: s₂.toList) :
    ∃ vs : List Token, ofSource (s₁ ++ "\n" ++ s₂) = (ts ++ vs).map .token ∧
      List.Forall₂ Alike (u :: us) vs := by
  have hmem : .token u ∈ ofSource s₂ := by
    rw [h₂]
    exact List.mem_cons_self
  have hchars : (s₁ ++ "\n" ++ s₂).toList = s₁.toList ++ '\n' :: s₂.toList := by
    simp [String.toList_append]
  obtain ⟨q, hq⟩ := scan_append .start s₁.toList s₂.toList h₁
  rw [scan_blank_cons q rfl (head_of_word hmem hword hfirst)] at hq
  have halike := scan_alike .start (q.step '\n') s₂.toList
  rw [← ofSource, h₂] at halike
  obtain ⟨vs, hvs, hus⟩ := exists_alike halike
  refine ⟨vs, ?_, hus⟩
  rw [ofSource, hchars, hq, hvs, List.map_append]

end Token
end Linkage
