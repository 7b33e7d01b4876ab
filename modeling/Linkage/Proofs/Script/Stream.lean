import Linkage.Script.Parse

/-!
# Linkage.Proofs.Script.Stream

Token streams and how a reader moves along one.

* `EndsOnce pieces` — the end is the last piece and no other one.
* `endsOnce_ofSource` — so it is in the pieces of every source.
* `Clean` — no error was found so far. Errors are never taken back, so a reader that stops in a
  clean state has been in clean ones only, and every piece it has passed was a token.
-/

namespace Linkage

/-- The end is the last piece and no other one. -/
def EndsOnce (pieces : List Piece) : Prop :=
  ∃ before line col, pieces = before ++ [.token (.endAt line col)] ∧
    ∀ t, .token t ∈ before → t.kind ≠ .eof

theorem EndsOnce.ne_nil {pieces : List Piece} (h : EndsOnce pieces) : pieces ≠ [] := by
  obtain ⟨before, line, col, rfl, -⟩ := h
  simp

theorem EndsOnce.cons {pieces : List Piece} (h : EndsOnce pieces) {p : Piece}
    (hp : ∀ t, p = .token t → t.kind ≠ .eof) : EndsOnce (p :: pieces) := by
  obtain ⟨before, line, col, rfl, hbefore⟩ := h
  refine ⟨p :: before, line, col, rfl, ?_⟩
  intro t ht
  rcases List.mem_cons.1 ht with ht | ht
  · exact hp t ht.symm
  · exact hbefore t ht

theorem EndsOnce.cases {p : Piece} {pieces : List Piece} (h : EndsOnce (p :: pieces)) :
    (pieces = [] ∧ ∃ line col, p = .token (.endAt line col)) ∨
      (EndsOnce pieces ∧ ∀ t, p = .token t → t.kind ≠ .eof) := by
  obtain ⟨before, line, col, heq, hbefore⟩ := h
  cases before with
  | nil =>
    simp only [List.nil_append, List.cons.injEq] at heq
    exact .inl ⟨heq.2, line, col, heq.1⟩
  | cons q before =>
    simp only [List.cons_append, List.cons.injEq] at heq
    obtain ⟨rfl, rfl⟩ := heq
    refine .inr ⟨⟨before, line, col, rfl, fun t ht => hbefore t (List.mem_cons_of_mem _ ht)⟩, ?_⟩
    rintro t rfl
    exact hbefore t List.mem_cons_self

theorem EndsOnce.drop {pieces : List Piece} (ts : List Token) (hne : pieces ≠ []) :
    EndsOnce (ts.map .token ++ pieces) → EndsOnce pieces := by
  induction ts with
  | nil => exact fun h => h
  | cons t ts ih =>
    intro h
    rcases h.cases with ⟨hnil, -⟩ | ⟨hrest, -⟩
    · exact absurd (List.append_eq_nil_iff.1 hnil).2 hne
    · exact ih hrest

/-- Without errors the pieces are the tokens before the end and the end. -/
theorem EndsOnce.tokens {tokens : List Token} (h : EndsOnce (tokens.map .token)) :
    ∃ ts line col, tokens = ts ++ [.endAt line col] := by
  obtain ⟨before, line, col, heq, -⟩ := h
  obtain ⟨ts, last, rfl, rfl, hlast⟩ := List.map_eq_append_iff.1 heq
  obtain ⟨t, ht, hend⟩ := List.map_eq_singleton_iff.1 hlast
  exact ⟨ts, line, col, by rw [ht, Piece.token.inj hend]⟩

/-- The last of the tokens is the end and no other one is. -/
theorem EndsOnce.notEnd {ts : List Token} {last : Token}
    (h : EndsOnce ((ts ++ [last]).map .token)) : last.kind = .eof ∧ ∀ t ∈ ts, t.kind ≠ .eof := by
  obtain ⟨before, line, col, heq, hbefore⟩ := h
  rw [List.map_append] at heq
  obtain ⟨rfl, hend⟩ := List.append_inj' heq rfl
  cases hend
  exact ⟨rfl, fun t ht => hbefore t (List.mem_map_of_mem ht)⟩

/-! ## Sources -/

namespace Token

theorem ofKeyword?_ne_eof {word : String} {kind : Kind} (h : Kind.ofKeyword? word = some kind) :
    kind ≠ .eof := by
  unfold Kind.ofKeyword? at h
  split at h <;> cases h <;> decide

theorem ofPunctuation?_ne_eof {c : Char} {kind : Kind} (h : Kind.ofPunctuation? c = some kind) :
    kind ≠ .eof := by
  unfold Kind.ofPunctuation? at h
  split at h <;> cases h <;> decide

theorem munchNumber_ne_eof {c : Char} {cs : List Char} {kind : Kind} :
    (munchNumber c cs).1 = .token kind → kind ≠ .eof := by
  fun_cases munchNumber c cs with
  | case1 => exact nofun
  | case2 =>
    rintro ⟨⟩
    decide
  | case3 =>
    rintro ⟨⟩
    decide
  | case4 => exact nofun

theorem munch_ne_eof {c : Char} {cs : List Char} {kind : Kind} :
    (munch c cs).1 = .token kind → kind ≠ .eof := by
  fun_cases munch c cs with
  | case1 => exact nofun
  | case2 => exact nofun
  | case3 => exact nofun
  | case4 _ _ _ n closed =>
    cases closed with
    | true =>
      rintro ⟨⟩
      decide
    | false => exact nofun
  | case5 => exact munchNumber_ne_eof
  | case6 _ _ _ _ _ n word =>
    rintro ⟨⟩
    cases hword : Kind.ofKeyword? word with
    | none => decide
    | some kind => exact ofKeyword?_ne_eof hword
  | case7 _ _ _ _ _ _ hkind =>
    rintro ⟨⟩
    exact ofPunctuation?_ne_eof hkind
  | case8 => exact nofun

theorem endsOnce_scan (p : Place) (cs : List Char) : EndsOnce (scan p cs) := by
  fun_induction scan p cs with
  | case1 => exact ⟨[], _, _, rfl, fun _ h => nomatch h⟩
  | case2 =>
    rename_i ih
    exact ih
  | case3 =>
    rename_i hmunch ih
    refine ih.cons ?_
    rintro t ⟨⟩
    exact munch_ne_eof (congrArg Prod.fst hmunch)
  | case4 =>
    rename_i ih
    exact ih.cons nofun

theorem endsOnce_ofSource (source : String) : EndsOnce (ofSource source) :=
  endsOnce_scan .start source.toList

end Token

/-! ## States -/

namespace Script
namespace State

/-- All that is left to read: the current token and what comes after it. -/
def ahead (s : State) : List Piece := .token s.current :: s.rest

/-- No error was found so far. -/
def Clean (s : State) : Prop := s.errors = #[]

theorem not_clean_report {s : State} {e : ParseError} : ¬ (s.report e).Clean := by
  simp [Clean, report]

theorem seek_nesting (s : State) (pieces : List Piece) : (s.seek pieces).nesting = s.nesting := by
  fun_induction seek s pieces with
  | case1 => rfl
  | case2 s e pieces ih => exact ih
  | case3 => rfl

theorem seek_clean {s : State} {pieces : List Piece} (h : (s.seek pieces).Clean) : s.Clean := by
  fun_induction seek s pieces with
  | case1 => exact h
  | case2 s e pieces ih => exact absurd (ih h) not_clean_report
  | case3 => exact h

/-- Without errors the first piece is the token that becomes current. -/
theorem seek_ahead {s : State} {pieces : List Piece} (h : (s.seek pieces).Clean)
    (hne : pieces ≠ []) : (s.seek pieces).ahead = pieces := by
  cases pieces with
  | nil => exact absurd rfl hne
  | cons p pieces =>
    cases p with
    | token t => rfl
    | error e =>
      rw [seek] at h
      exact absurd (seek_clean h) not_clean_report

theorem bump_nesting (s : State) : s.bump.nesting = s.nesting := seek_nesting s s.rest

theorem bump_clean {s : State} (h : s.bump.Clean) : s.Clean := seek_clean h

/-- Moving past a token that is not the end leaves what came after it. -/
theorem bump_ahead {s : State} (h : s.bump.Clean) (hends : EndsOnce s.ahead)
    (hkind : s.current.kind ≠ .eof) : s.ahead = .token s.current :: s.bump.ahead := by
  rcases hends.cases with ⟨-, line, col, heq⟩ | ⟨hrest, -⟩
  · rw [Piece.token.inj heq] at hkind
    exact absurd rfl hkind
  · rw [ahead, bump, seek_ahead h hrest.ne_nil]

theorem ofPieces_ahead {pieces : List Piece} (h : (ofPieces pieces).Clean) (hne : pieces ≠ []) :
    (ofPieces pieces).ahead = pieces :=
  seek_ahead h hne

theorem ofPieces_nesting (pieces : List Piece) : (ofPieces pieces).nesting = 0 :=
  seek_nesting _ pieces

theorem skipField_clean (bound : List Piece) :
    ∀ {s : State}, (skipField bound s).Clean → s.Clean := by
  induction bound with
  | nil => exact fun h => h
  | cons _ bound ih =>
    intro s h
    unfold skipField at h
    split at h
    · exact h
    · exact h
    · exact bump_clean h
    · exact bump_clean (ih h)

theorem skipItem_clean (bound : List Piece) :
    ∀ {depth : Nat} {s : State}, (skipItem bound depth s).Clean → s.Clean := by
  induction bound with
  | nil => exact fun h => h
  | cons _ bound ih =>
    intro depth s h
    unfold skipItem at h
    split at h
    · exact h
    · exact bump_clean (ih h)
    · exact bump_clean (ih h)
    · split at h
      · exact h
      · exact bump_clean (ih h)

end State

end Script

theorem EndsOnce.after {s t : Script.State} {ts : List Token} (h : EndsOnce s.ahead)
    (heq : s.ahead = ts.map .token ++ t.ahead) : EndsOnce t.ahead := by
  rw [heq] at h
  exact h.drop ts (List.cons_ne_nil _ _)

theorem EndsOnce.eq_end {s : Script.State} (h : EndsOnce s.ahead)
    (hend : s.current.kind = .eof ∨ s.rest = []) :
    ∃ line col, s.ahead = [.token (.endAt line col)] := by
  rcases h.cases with ⟨hrest, line, col, hcurrent⟩ | ⟨hrest, hcurrent⟩
  · exact ⟨line, col, by rw [Script.State.ahead, hrest, hcurrent]⟩
  · rcases hend with hkind | hnil
    · exact absurd hkind (hcurrent _ rfl)
    · exact absurd hnil hrest.ne_nil

end Linkage
