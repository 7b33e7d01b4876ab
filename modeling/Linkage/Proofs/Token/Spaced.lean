import Linkage.Proofs.Token.Joined

/-!
# Linkage.Proofs.Token.Spaced

Tokens written with single spaces between them.

* `Whole` — the text of a token, which is cut off as one piece wherever white space follows it.
* `whole_of_mem_scan` — so is every token that a scan has found.
* `scan_spaced` — the scan of tokens with spaces between them gives them back.
-/

namespace Linkage
namespace Token

/-- The lexemes of these tokens with a space between each two. -/
def spaced (ts : List Token) : String := String.intercalate " " (ts.map (·.lexeme))

/-- The text of a token, which is cut off as one piece wherever white space or the end follows. -/
inductive Whole (kind : Kind) : List Char → Prop where
  | intro {c : Char} {cs : List Char} (hblank : Text.isBlankChar c = false) (hmark : c ≠ '\ufeff')
      (hmunch : ∀ es, Breaks es → munch c (cs ++ es) = (.token kind, cs.length)) :
      Whole kind (c :: cs)

/-! ## Single tokens -/

theorem ofPunctuation?_of_blank {c : Char} {kind : Kind} (h : Kind.ofPunctuation? c = some kind) :
    Text.isBlankChar c = false ∧ c ≠ '\ufeff' := by
  unfold Kind.ofPunctuation? at h
  split at h <;> first | decide | cases h

/-- No token begins with white space or with a byte-order mark. -/
theorem first_of_munch {c : Char} {cs : List Char} {kind : Kind} :
    (munch c cs).1 = .token kind → Text.isBlankChar c = false ∧ c ≠ '\ufeff' := by
  fun_cases munch c cs with
  | case1 => rintro ⟨⟩
  | case2 => rintro ⟨⟩
  | case3 => rintro ⟨⟩
  | case4 _ _ hquote =>
    rw [hquote]
    exact fun _ => by decide
  | case5 _ _ _ hdigit =>
    refine fun _ => ⟨Bool.eq_false_iff.2 fun h => ?_, ?_⟩
    · rw [isDigit_of_blank h] at hdigit
      cases hdigit
    · rintro rfl
      exact absurd hdigit (by decide)
  | case6 _ _ _ _ hstart =>
    refine fun _ => ⟨Bool.eq_false_iff.2 fun h => ?_, ?_⟩
    · rw [isIdentStart_of_blank h] at hstart
      cases hstart
    · rintro rfl
      exact absurd hstart (by decide)
  | case7 _ _ _ _ _ kind hkind => exact fun _ => ofPunctuation?_of_blank hkind
  | case8 => rintro ⟨⟩

theorem whole_of_munch {c : Char} {rest : List Char} {kind : Kind}
    (h : (munch c rest).1 = .token kind) : Whole kind (c :: rest.take (munch c rest).2) := by
  obtain ⟨hblank, hmark⟩ := first_of_munch h
  refine .intro hblank hmark fun es hes => ?_
  rw [munch_take_append hes h (Nat.le_refl _), List.length_take, Nat.min_eq_left (munch_le c rest)]
  exact Prod.ext h rfl

/-- By induction along the scan. -/
theorem whole_of_mem_scan (p : Place) (cs : List Char) {t : Token} :
    .token t ∈ scan p cs → t.kind ≠ .eof → Whole t.kind t.lexeme.toList := by
  fun_induction scan p cs with
  | case1 =>
    intro ht hend
    cases List.mem_singleton.1 ht
    exact absurd rfl hend
  | case2 _ _ _ _ _ _ _ _ _ _ _ ih => exact ih
  | case3 p cs blank q c rest hrest n text next kind hmunch ih =>
    intro ht hend
    rcases List.mem_cons.1 ht with ht | ht
    · cases ht
      have hwhole := whole_of_munch (congrArg Prod.fst hmunch)
      rw [hmunch] at hwhole
      rwa [String.toList_ofList]
    · exact ih ht hend
  | case4 p cs blank q c rest hrest n text next cause hmunch ih =>
    intro ht hend
    rcases List.mem_cons.1 ht with ht | ht
    · cases ht
    · exact ih ht hend

/-- A token that begins with the first character is the next piece. -/
theorem scan_munch (p : Place) {c : Char} {rest : List Char} {kind : Kind} {n : Nat}
    (h : munch c rest = (.token kind, n)) :
    scan p (c :: rest) =
      .token ⟨kind, String.ofList (c :: rest.take n), p.span (c :: rest.take n)⟩ ::
        scan (p.advance (c :: rest.take n)) (rest.drop n) := by
  obtain ⟨hblank, hmark⟩ := first_of_munch (congrArg Prod.fst h)
  have hnone : blankLength (c :: rest) = 0 := by
    rw [blankLength_of_ne hmark, run, List.takeWhile_cons_of_neg (by simp [hblank])]
    rfl
  have hdrop : (c :: rest).drop (blankLength (c :: rest)) = c :: rest := by
    rw [hnone]
    rfl
  rw [scan_step hdrop, hnone, h]
  rfl

/-- Such a text is the next token, whatever place it stands at. -/
theorem Whole.scan {kind : Kind} {text es : List Char} (h : Whole kind text) (hes : Breaks es)
    (p : Place) :
    scan p (text ++ es) =
      .token ⟨kind, String.ofList text, p.span text⟩ :: Token.scan (p.advance text) es := by
  cases h with
  | @intro c cs _ _ hmunch =>
    rw [List.cons_append, scan_munch p (hmunch es hes), List.take_left, List.drop_left]

/-! ## Several tokens -/

theorem spaced_cons (t u : Token) (us : List Token) :
    (spaced (t :: u :: us)).toList = t.lexeme.toList ++ ' ' :: (spaced (u :: us)).toList := by
  simp only [spaced, List.map_cons, String.intercalate_cons_cons, String.toList_append,
    List.append_assoc]
  rfl

theorem spaced_singleton (t : Token) : spaced [t] = t.lexeme := String.intercalate_singleton

theorem Whole.head_ne {kind : Kind} {text : List Char} (h : Whole kind text) (es : List Char) :
    (text ++ es).head? ≠ some '\ufeff' := by
  cases h with
  | intro _ hmark => exact fun heq => hmark (Option.some_inj.1 heq)

theorem exists_spaced_cons (t : Token) (ts : List Token) :
    ∃ es, (spaced (t :: ts)).toList = t.lexeme.toList ++ es := by
  cases ts with
  | nil => exact ⟨[], by rw [spaced_singleton, List.append_nil]⟩
  | cons u us => exact ⟨_, spaced_cons t u us⟩

/-- The same token at this place. -/
def placedAt (p : Place) (t : Token) : Token := ⟨t.kind, t.lexeme, p.span t.lexeme.toList⟩

theorem scan_placed {t : Token} {es : List Char} (h : Whole t.kind t.lexeme.toList)
    (hes : Breaks es) (p : Place) :
    scan p (t.lexeme.toList ++ es) =
      .token (t.placedAt p) :: scan (p.advance t.lexeme.toList) es := by
  rw [h.scan hes, String.ofList_toList]
  rfl

/-- By induction on the tokens; each of them breaks off at the space after it. -/
theorem scan_spaced {es : List Char} (hes : Breaks es) {ts : List Token}
    (hts : ∀ t ∈ ts, Whole t.kind t.lexeme.toList) (p : Place) :
    ∃ us q, scan p ((spaced ts).toList ++ es) = us.map .token ++ scan q es ∧
      List.Forall₂ Alike ts us := by
  induction ts generalizing p with
  | nil => exact ⟨[], p, rfl, .nil⟩
  | cons t ts ih =>
    obtain ⟨ht, hts⟩ := List.forall_mem_cons.1 hts
    cases ts with
    | nil =>
      refine ⟨[t.placedAt p], p.advance t.lexeme.toList, ?_, .cons ⟨rfl, rfl⟩ .nil⟩
      rw [spaced_singleton]
      exact scan_placed ht hes p
    | cons u us =>
      obtain ⟨rest, hrest⟩ := exists_spaced_cons u us
      have hhead : ((spaced (u :: us)).toList ++ es).head? ≠ some '\ufeff' := by
        rw [hrest, List.append_assoc]
        exact (hts u List.mem_cons_self).head_ne _
      obtain ⟨vs, q, hvs, halike⟩ := ih hts ((p.advance t.lexeme.toList).step ' ')
      refine ⟨t.placedAt p :: vs, q, ?_, .cons ⟨rfl, rfl⟩ halike⟩
      rw [spaced_cons, List.append_assoc, List.cons_append, scan_placed ht (breaks_cons rfl _) p,
        scan_blank_cons _ rfl hhead, hvs]
      rfl

/-- The end of a source counted as a token is at most one more space. -/
theorem spaced_end (ts : List Token) (line col : UInt32) :
    ∃ es, (spaced (ts ++ [endAt line col])).toList = (spaced ts).toList ++ es ∧
      (es = [] ∨ es = [' ']) := by
  induction ts with
  | nil => exact ⟨[], rfl, .inl rfl⟩
  | cons t ts ih =>
    cases ts with
    | nil =>
      refine ⟨[' '], ?_, .inr rfl⟩
      rw [List.singleton_append, spaced_cons, spaced_singleton, spaced_singleton]
      rfl
    | cons u us =>
      obtain ⟨es, hes, hshort⟩ := ih
      refine ⟨es, ?_, hshort⟩
      rw [List.cons_append, List.cons_append, spaced_cons, spaced_cons, ← List.cons_append, hes,
        List.append_assoc, List.cons_append]

theorem scan_trailing (p : Place) {es : List Char} (h : es = [] ∨ es = [' ']) :
    ∃ line col, scan p es = [.token (endAt line col)] := by
  rcases h with rfl | rfl
  · exact ⟨_, _, scan_end rfl⟩
  · exact ⟨_, _, scan_end rfl⟩

/--
The tokens of a source without errors, written with single spaces between them, are read as the same
tokens, whether or not its end is counted as one of them.
-/
theorem ofSource_spaced {source text : String} {ts : List Token} {line col : UInt32}
    (h : ofSource source = (ts ++ [endAt line col]).map .token)
    (htext : text = spaced ts ∨ text = spaced (ts ++ [endAt line col])) :
    ∃ us line' col', ofSource text = (us ++ [endAt line' col']).map .token ∧
      List.Forall₂ Alike ts us := by
  have hends := endsOnce_ofSource source
  rw [h] at hends
  have hwhole : ∀ t ∈ ts, Whole t.kind t.lexeme.toList := by
    intro t ht
    refine whole_of_mem_scan .start source.toList ?_ (hends.notEnd.2 t ht)
    rw [← ofSource, h]
    exact List.mem_map_of_mem (List.mem_append_left _ ht)
  obtain ⟨es, hes, hshort⟩ : ∃ es, text.toList = (spaced ts).toList ++ es ∧
      (es = [] ∨ es = [' ']) := by
    rcases htext with rfl | rfl
    · exact ⟨[], (List.append_nil _).symm, .inl rfl⟩
    · exact spaced_end ts line col
  have hbreaks : Breaks es := by
    rcases hshort with rfl | rfl
    · exact breaks_nil
    · exact breaks_cons rfl []
  obtain ⟨us, q, hus, halike⟩ := scan_spaced hbreaks hwhole .start
  obtain ⟨line', col', hend⟩ := scan_trailing q hshort
  refine ⟨us, line', col', ?_, halike⟩
  rw [ofSource, hes, hus, hend, List.map_append]
  rfl

end Token
end Linkage
