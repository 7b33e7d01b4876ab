import Linkage.Proofs.Script.Recovery
import Linkage.Proofs.Script.Stepwise

/-!
# Linkage.Proofs.Script.Progress

Reading gets to the end of every stream of tokens that has one, whatever is wrong with it.

A loop over declarations, fields, modifiers or operators is bounded by the pieces ahead. Every turn
of such a loop goes past a token, also where the declaration or the field is broken and nothing but
recovery moves on, so it is never the bound that ends the loop.

* `State.Onward`, `State.Consumes` — from one state to another the reader goes past some of the
  tokens ahead.
* `itemTurn_onward`, `fieldTurn_onward` — every turn goes past the token that it begins with.
* `Turns` — a loop without a bound, with the tokens that each turn goes past.
* `turns_turnsUpTo` — the loop with a bound is that loop.
* `RestOfItem`, `RestOfField` — what is skipped after an error.
* `State.Advances` — all of this at one state, `ReadsThrough` for a whole stream.
* `ofPieces_progress` — every token of the stream is gone past once, up to the end.
-/

namespace Linkage

def Piece.token? : Piece → Option Token
  | .token t => some t
  | .error _ => none

namespace Script

/-! ## Tokens ahead -/

def tokensOf (pieces : List Piece) : List Token := pieces.filterMap Piece.token?

/-- The last token is an end, and no other one is. -/
def Terminated (tokens : List Token) : Prop :=
  ∃ ts last, tokens = ts ++ [last] ∧ last.kind = .eof ∧ ∀ t ∈ ts, t.kind ≠ .eof

theorem Terminated.of_suffix {ts us : List Token} (h : Terminated ts) (hsuffix : us <:+ ts)
    (hne : us ≠ []) : Terminated us := by
  obtain ⟨ts, last, rfl, hlast, hts⟩ := h
  obtain ⟨us, u, rfl⟩ := us.eq_nil_or_concat'.resolve_left hne
  obtain ⟨before, heq⟩ := hsuffix
  rw [← List.append_assoc] at heq
  obtain ⟨rfl, hu⟩ := List.append_inj' heq rfl
  obtain rfl := List.singleton_inj.1 hu
  exact ⟨us, u, rfl, hlast, fun t ht => hts t (List.mem_append_right _ ht)⟩

theorem Terminated.ne_nil {ts : List Token} (h : Terminated ts) : ts ≠ [] := by
  obtain ⟨us, last, rfl, -⟩ := h
  exact List.append_ne_nil_of_right_ne_nil us nofun

/-- Only after the end there is nothing. -/
theorem Terminated.eof_iff {t : Token} {ts : List Token} (h : Terminated (t :: ts)) :
    t.kind = .eof ↔ ts = [] := by
  obtain ⟨us, last, heq, hlast, hus⟩ := h
  cases us with
  | nil =>
    obtain ⟨rfl, rfl⟩ := List.cons.inj heq
    exact iff_of_true hlast rfl
  | cons u us =>
    obtain ⟨rfl, rfl⟩ := List.cons.inj heq
    exact iff_of_false (hus t List.mem_cons_self) (List.append_ne_nil_of_right_ne_nil us nofun)

namespace State

/-- All tokens that are left: the current one and those after it. -/
def tokens (s : State) : List Token := s.current :: tokensOf s.rest

/-- From `s` to `t` the reader goes past these tokens. -/
def Consumes (s : State) (ts : List Token) (t : State) : Prop := s.tokens = ts ++ t.tokens

/-- From `s` to `t` the reader goes past some of the tokens that are ahead. -/
def Onward (s t : State) : Prop := t.tokens <:+ s.tokens

theorem Onward.consumes {s t : State} (h : s.Onward t) : ∃ ts, s.Consumes ts t :=
  h.imp fun _ => Eq.symm

theorem Consumes.onward {s t : State} {ts : List Token} (h : s.Consumes ts t) : s.Onward t :=
  ⟨ts, h.symm⟩

theorem Onward.terminated {s t : State} (h : s.Onward t) (hs : Terminated s.tokens) :
    Terminated t.tokens :=
  hs.of_suffix h nofun

theorem Consumes.terminated {s t : State} {ts : List Token} (h : s.Consumes ts t)
    (hs : Terminated s.tokens) : Terminated t.tokens :=
  h.onward.terminated hs

theorem Consumes.trans {s t u : State} {ts us : List Token} (hst : s.Consumes ts t)
    (htu : t.Consumes us u) : s.Consumes (ts ++ us) u := by
  unfold Consumes at *
  rw [hst, htu, List.append_assoc]

theorem tokens_seek (s : State) (pieces : List Piece) :
    (s.seek pieces).tokens = if tokensOf pieces = [] then [s.current] else tokensOf pieces := by
  fun_induction seek s pieces with
  | case1 => rfl
  | case2 s e pieces ih => exact ih
  | case3 => rfl

theorem tokens_bump (s : State) :
    s.bump.tokens = if tokensOf s.rest = [] then [s.current] else tokensOf s.rest :=
  s.tokens_seek s.rest

theorem bump_onward (s : State) : s.Onward s.bump := by
  rw [Onward, tokens_bump]
  split
  · rename_i h
    have htokens : [s.current] = s.tokens := congrArg (s.current :: ·) h.symm
    exact ⟨[], htokens⟩
  · exact List.suffix_cons _ _

theorem stepwise_onward : Stepwise Onward where
  refl s := List.suffix_refl s.tokens
  trans hst htu := htu.trans hst
  bump := bump_onward
  report s _ := List.suffix_refl s.tokens
  nested h := h

/-- Before the end moving on goes past exactly one token. -/
theorem bump_consumes {s : State} (hs : Terminated s.tokens) (hend : s.current.kind ≠ .eof) :
    s.Consumes [s.current] s.bump := by
  rw [Consumes, tokens_bump, if_neg (mt hs.eof_iff.2 hend)]
  rfl

theorem rest_ne_nil {s : State} (hs : Terminated s.tokens) (hend : s.current.kind ≠ .eof) :
    s.rest ≠ [] := by
  intro h
  refine hend (hs.eof_iff.2 ?_)
  rw [h]
  rfl

/-- Going on from the next token is going past the current one and more. -/
theorem exists_consumes {s t : State} (hs : Terminated s.tokens) (hend : s.current.kind ≠ .eof)
    (h : s.bump.Onward t) : ∃ ts, ts ≠ [] ∧ s.Consumes ts t := by
  obtain ⟨ts, hts⟩ := h.consumes
  exact ⟨s.current :: ts, nofun, (bump_consumes hs hend).trans hts⟩

/-! ## Bounds -/

/-- A bound of this length lasts up to the end. -/
def Lasts (bound : List Piece) (s : State) : Prop := s.tokens.length ≤ bound.length + 1

theorem lasts_rest (s : State) : Lasts s.rest s :=
  Nat.succ_le_succ (List.length_filterMap_le Piece.token? s.rest)

/-- Past some tokens a shorter bound lasts. -/
theorem Lasts.tail {p : Piece} {bound : List Piece} {s t : State} {ts : List Token}
    (h : Lasts (p :: bound) s) (hst : s.Consumes ts t) (hts : ts ≠ []) : Lasts bound t := by
  have hlength := congrArg List.length hst
  have hpos := List.length_pos_of_ne_nil hts
  rw [List.length_append] at hlength
  unfold Lasts at h ⊢
  rw [List.length_cons] at h
  omega

/-- Only at the end there need not be a bound. -/
theorem Lasts.eof {s : State} (h : Lasts [] s) (hs : Terminated s.tokens) :
    s.current.kind = .eof :=
  hs.eof_iff.2 (List.length_eq_zero_iff.1 (Nat.le_zero.1 (Nat.le_of_succ_le_succ h)))

/-! ## Recovery -/

theorem skipField_onward (bound : List Piece) : ∀ s : State, s.Onward (skipField bound s) := by
  have h := stepwise_onward
  induction bound with
  | nil => exact h.refl
  | cons _ bound ih =>
    intro s
    unfold skipField
    split
    · exact h.refl s
    · exact h.refl s
    · exact h.bump s
    · exact h.trans (h.bump s) (ih s.bump)

theorem skipItem_onward (bound : List Piece) :
    ∀ (depth : Nat) (s : State), s.Onward (skipItem bound depth s) := by
  have h := stepwise_onward
  induction bound with
  | nil => exact fun _ => h.refl
  | cons _ bound ih =>
    intro depth s
    unfold skipItem
    split
    · exact h.refl s
    · exact h.trans (h.bump s) (ih _ s.bump)
    · exact h.trans (h.bump s) (ih _ s.bump)
    · split
      · exact h.refl s
      · exact h.trans (h.bump s) (ih _ s.bump)

end State

/-- Where the fields of a type end. -/
def EndsBody (kind : Token.Kind) : Prop := kind = .rightBrace ∨ kind = .eof

instance : DecidablePred EndsBody := fun _ => inferInstanceAs (Decidable (_ ∨ _))

/-- What is left of a broken field, and the token after it. -/
inductive RestOfField : List Token → Token → Prop where
  | stop {next : Token} : EndsBody next.kind → RestOfField [] next
  | semicolon {t next : Token} : t.kind = .semicolon → RestOfField [t] next
  | pass {t next : Token} {ts : List Token} : ¬ EndsBody t.kind → t.kind ≠ .semicolon →
      RestOfField ts next → RestOfField (t :: ts) next

/-- The end, or the start of a declaration outside of any braces. -/
def EndsItem (depth : Nat) (kind : Token.Kind) : Prop :=
  kind = .eof ∨ kind.startsItem = true ∧ depth = 0

/-- What is left of a broken declaration with `depth` braces open, and the token after it. -/
inductive RestOfItem : Nat → List Token → Token → Prop where
  | stop {depth : Nat} {next : Token} : EndsItem depth next.kind → RestOfItem depth [] next
  | pass {depth : Nat} {t next : Token} {ts : List Token} : ¬ EndsItem depth t.kind →
      RestOfItem (t.kind.braces depth) ts next → RestOfItem depth (t :: ts) next

namespace State

theorem skipField_consumes (bound : List Piece) : ∀ {s : State}, Terminated s.tokens →
    Lasts bound s → ∃ ts, s.Consumes ts (skipField bound s) ∧
      RestOfField ts (skipField bound s).current := by
  induction bound with
  | nil =>
    intro s hs hlasts
    exact ⟨[], rfl, .stop (.inr (hlasts.eof hs))⟩
  | cons p bound ih =>
    intro s hs hlasts
    by_cases hstop : EndsBody s.current.kind
    · rw [skipField_stop hstop.symm]
      exact ⟨[], rfl, .stop hstop⟩
    · obtain ⟨hbrace, hend⟩ := not_or.1 hstop
      have hbump := bump_consumes hs hend
      rw [skipField_step hend hbrace]
      split
      · exact ⟨_, hbump, .semicolon ‹_›⟩
      · obtain ⟨ts, hts, hrest⟩ := ih (hbump.terminated hs) (hlasts.tail hbump nofun)
        exact ⟨_, hbump.trans hts, .pass hstop ‹_› hrest⟩

theorem skipItem_consumes (bound : List Piece) : ∀ {depth : Nat} {s : State},
    Terminated s.tokens → Lasts bound s → ∃ ts, s.Consumes ts (skipItem bound depth s) ∧
      RestOfItem depth ts (skipItem bound depth s).current := by
  induction bound with
  | nil =>
    intro depth s hs hlasts
    exact ⟨[], rfl, .stop (.inl (hlasts.eof hs))⟩
  | cons p bound ih =>
    intro depth s hs hlasts
    by_cases hstop : EndsItem depth s.current.kind
    · rw [skipItem_stop hstop]
      exact ⟨[], rfl, .stop hstop⟩
    · obtain ⟨hend, hitem⟩ := not_or.1 hstop
      have hbump := bump_consumes hs hend
      rw [skipItem_step hend hitem]
      obtain ⟨ts, hts, hrest⟩ := ih (hbump.terminated hs) (hlasts.tail hbump nofun)
      exact ⟨_, hbump.trans hts, .pass hstop hrest⟩

theorem recoverField_consumes {s : State} (hs : Terminated s.tokens) :
    ∃ ts, s.Consumes ts s.recoverField ∧ RestOfField ts s.recoverField.current :=
  skipField_consumes s.rest hs s.lasts_rest

theorem recoverItem_consumes {s : State} (hs : Terminated s.tokens) :
    ∃ ts, s.Consumes ts s.recoverItem ∧ RestOfItem 0 ts s.recoverItem.current :=
  skipItem_consumes s.rest hs s.lasts_rest

end State

namespace Reader

open State

variable {α β : Type}

/-! ## Operators -/

theorem exists_of_bind {r : Reader α} {f : α → Reader β} {s u : State} {b : β}
    (h : (r >>= f) s = .ok b u) : ∃ a t, r s = .ok a t ∧ f a t = .ok b u := by
  change Reader.bind r f s = .ok b u at h
  unfold Reader.bind at h
  split at h
  · cases h
  · exact ⟨_, _, ‹_›, h⟩

theorem onward_of_ok {r : Reader α} (h : Carries Onward r) {s t : State} {a : α}
    (hok : r s = .ok a t) : s.Onward t := by
  have hs := h s
  rw [hok] at hs
  exact hs

theorem ne_eof_of_some {f : Token.Kind → Option β} (hnone : f .eof = none) {kind : Token.Kind}
    {b : β} (h : f kind = some b) : kind ≠ .eof := by
  rintro rfl
  cases hnone.symm.trans h

/-- Operands are joined for as long as an operator follows. -/
theorem chain_stops {operator? : Token.Kind → Option Operator} (hnone : operator? .eof = none)
    {operand : Reader Operand} (h : Carries Onward operand) (bound : List Piece) :
    ∀ {lhs o : Operand} {s t : State}, Terminated s.tokens → Lasts bound s →
      chain operator? operand bound lhs s = .ok o t → operator? t.current.kind = none := by
  induction bound with
  | nil =>
    rintro lhs o s t hs hlasts ⟨⟩
    rw [hlasts.eof hs, hnone]
  | cons p bound ih =>
    intro lhs o s t hs hlasts hread
    rw [chain] at hread
    obtain ⟨_, _, ⟨⟩, hread⟩ := exists_of_bind hread
    cases hop : operator? s.current.kind with
    | none =>
      rw [hop] at hread
      cases hread
      exact hop
    | some op =>
      have hend := ne_eof_of_some hnone hop
      rw [hop] at hread
      obtain ⟨_, _, ⟨⟩, hread⟩ := exists_of_bind hread
      obtain ⟨rhs, u, hrhs, hread⟩ := exists_of_bind hread
      obtain ⟨both, v, hboth, hread⟩ := exists_of_bind hread
      have huv : u.Onward v := onward_of_ok (carries_ofExcept stepwise_onward _) hboth
      have hbump : s.bump.Onward v := stepwise_onward.trans (onward_of_ok h hrhs) huv
      obtain ⟨ts, hne, hts⟩ := exists_consumes hs hend hbump
      exact ih (hts.terminated hs) (hlasts.tail hts hne) hread

theorem joined_stops {operator? : Token.Kind → Option Operator} (hnone : operator? .eof = none)
    {operand : Reader Operand} (h : Carries Onward operand) {s t : State} {o : Operand}
    (hs : Terminated s.tokens) (hread : joined operator? operand s = .ok o t) :
    operator? t.current.kind = none := by
  obtain ⟨lhs, u, hlhs, hread⟩ := exists_of_bind hread
  exact chain_stops hnone h u.rest ((onward_of_ok h hlhs).terminated hs) u.lasts_rest hread

/-! ## Loops -/

/-- One turn of a loop: what was read if it is sound, and where the loop goes on. -/
def turn (r : Reader α) (recover : State → State) (s : State) : List α × State :=
  match r s with
  | .ok a t => ([a], t)
  | .error e t => ([], recover (t.report e))

theorem turn_onward {r : Reader α} {recover : State → State} {b s : State}
    (hrecover : ∀ t, Onward t (recover t)) (h : b.Onward (r s).state) :
    b.Onward (turn r recover s).2 := by
  unfold turn
  cases hread : r s with
  | ok a t =>
    rw [hread] at h
    exact h
  | error e t =>
    rw [hread] at h
    exact stepwise_onward.trans h (hrecover (t.report e))

section

variable (stops : Token.Kind → Prop) (turn : State → List α × State)

/--
A loop up to a token where it ends, without a bound: the tokens that each turn goes past, at least
one, and what is read in all of them.
-/
inductive Turns : State → List (List Token) → List α → State → Prop where
  | stop {s : State} : stops s.current.kind → Turns s [] [] s
  | turn {s t : State} {ts : List Token} {chunks : List (List Token)} {as : List α} :
      ¬ stops s.current.kind → ts ≠ [] → s.Consumes ts (turn s).2 → Turns (turn s).2 chunks as t →
      Turns s (ts :: chunks) ((turn s).1 ++ as) t

/-- The same loop with at most one turn for each of the pieces in a bound. -/
def turnsUpTo [DecidablePred stops] : List Piece → State → List α × State
  | [], s => ([], s)
  | _ :: bound, s =>
    if stops s.current.kind then ([], s)
    else
      let (as, t) := turn s
      let (bs, u) := turnsUpTo bound t
      (as ++ bs, u)

variable {stops turn}

theorem Turns.consumes {s t : State} {chunks : List (List Token)} {as : List α}
    (h : Turns stops turn s chunks as t) : s.Consumes chunks.flatten t := by
  induction h with
  | stop _ => rfl
  | turn _ _ hts _ ih => exact hts.trans ih

theorem Turns.stops_at {s t : State} {chunks : List (List Token)} {as : List α}
    (h : Turns stops turn s chunks as t) : stops t.current.kind := by
  induction h with
  | stop h => exact h
  | turn _ _ _ _ ih => exact ih

theorem turnsUpTo_onward [DecidablePred stops] (hturn : ∀ s : State, s.Onward (turn s).2)
    (bound : List Piece) : ∀ s : State, s.Onward (turnsUpTo stops turn bound s).2 := by
  have h := stepwise_onward
  induction bound with
  | nil => exact h.refl
  | cons _ bound ih =>
    intro s
    unfold turnsUpTo
    split
    · exact h.refl s
    · exact h.trans (hturn s) (ih _)

/--
Where every turn goes past a token the bound is never what ends the loop. By induction on the bound,
which lasts for what is left after a turn.
-/
theorem turns_turnsUpTo [DecidablePred stops] (heof : stops .eof)
    (hturn : ∀ {s : State}, Terminated s.tokens → ¬ stops s.current.kind → s.bump.Onward (turn s).2)
    (bound : List Piece) : ∀ {s : State}, Terminated s.tokens → Lasts bound s →
      ∃ chunks, Turns stops turn s chunks (turnsUpTo stops turn bound s).1
        (turnsUpTo stops turn bound s).2 := by
  induction bound with
  | nil =>
    intro s hs hlasts
    exact ⟨[], .stop (hlasts.eof hs ▸ heof)⟩
  | cons p bound ih =>
    intro s hs hlasts
    unfold turnsUpTo
    split
    · exact ⟨[], .stop ‹_›⟩
    · rename_i hstop
      have hend : s.current.kind ≠ .eof := fun hend => hstop (hend ▸ heof)
      obtain ⟨ts, hne, hts⟩ := exists_consumes hs hend (hturn hs hstop)
      obtain ⟨chunks, hchunks⟩ := ih (hts.terminated hs) (hlasts.tail hts hne)
      exact ⟨_, .turn hstop hne hts hchunks⟩

end

/-! ## Fields -/

/-- The field loop of a type, turn by turn. -/
def fieldTurn : State → List FieldDecl × State := turn field recoverField

theorem carries_fieldAfter (name : Ident) : Carries Onward (fieldAfter name) := by
  have h := stepwise_onward
  refine carries_bind h (carries_expect h _) fun _ => carries_bind h (carries_path h) fun type => ?_
  exact carries_bind h (carries_expect h _) fun last => carries_pure h _

theorem carries_field : Carries Onward field :=
  carries_bind stepwise_onward (carries_ident stepwise_onward) carries_fieldAfter

/-- A field that has no name is not read at all; then it is recovery that moves on. -/
theorem fieldTurn_onward {s : State} (hs : Terminated s.tokens)
    (hstop : ¬ EndsBody s.current.kind) : s.bump.Onward (fieldTurn s).2 := by
  obtain ⟨hbrace, hend⟩ := not_or.1 hstop
  by_cases hident : s.current.kind = .identifier
  · refine turn_onward (fun t => skipField_onward t.rest t) ?_
    rw [field_of_identifier hident]
    exact carries_fieldAfter _ s.bump
  · -- The error is found at the token itself, which is still there when recovery starts.
    obtain ⟨p, ps, hrest⟩ := List.exists_cons_of_ne_nil (rest_ne_nil hs hend)
    have hskip (e : ParseError) : s.bump.Onward (s.report e).recoverField := by
      have htokens : (s.report e).bump.tokens = s.bump.tokens :=
        (tokens_bump (s.report e)).trans (tokens_bump s).symm
      have hreport : s.bump.Onward (s.report e).bump := ⟨[], htokens⟩
      change s.bump.Onward (skipField s.rest (s.report e))
      rw [hrest, skipField_step (s := s.report e) hend hbrace]
      split
      · exact hreport
      · exact stepwise_onward.trans hreport (skipField_onward ps _)
    unfold fieldTurn turn
    rw [field_of_other hident]
    exact hskip _

theorem fieldsUpTo_eq (bound : List Piece) :
    ∀ s, fieldsUpTo bound s = turnsUpTo EndsBody fieldTurn bound s := by
  induction bound with
  | nil => exact fun _ => rfl
  | cons p bound ih =>
    intro s
    rw [fieldsUpTo, turnsUpTo]
    simp only [← ih]
    unfold fieldTurn turn
    cases field s with
    | ok a t => rfl
    | error e t => rfl

theorem fieldsUpTo_onward (bound : List Piece) (s : State) :
    s.Onward (fieldsUpTo bound s).2 := by
  rw [fieldsUpTo_eq]
  refine turnsUpTo_onward (fun t => ?_) bound s
  exact turn_onward (fun u => skipField_onward u.rest u) (carries_field t)

/-! ## Types -/

theorem passModifier_onward (seen ms : Modifiers) (s : State) :
    s.bump.Onward (passModifier seen ms s) := by
  unfold passModifier
  split
  · exact stepwise_onward.report _ _
  · exact stepwise_onward.refl _

theorem modifiersUpTo_onward (bound : List Piece) :
    ∀ (seen : Modifiers) (s : State), s.Onward (modifiersUpTo bound seen s).2 := by
  have h := stepwise_onward
  induction bound with
  | nil => exact fun _ => h.refl
  | cons p bound ih =>
    intro seen s
    cases hmodifier : modifier? s.current.kind with
    | none =>
      rw [modifiersUpTo_stop hmodifier]
      exact h.refl s
    | some ms =>
      rw [modifiersUpTo_step hmodifier]
      exact h.trans (h.trans (h.bump s) (passModifier_onward seen ms s)) (ih _ _)

theorem modifiersUpTo_stops (bound : List Piece) : ∀ {seen : Modifiers} {s : State},
    Terminated s.tokens → Lasts bound s →
      modifier? (modifiersUpTo bound seen s).2.current.kind = none := by
  induction bound with
  | nil =>
    intro seen s hs hlasts
    change modifier? s.current.kind = none
    rw [hlasts.eof hs]
    rfl
  | cons p bound ih =>
    intro seen s hs hlasts
    cases hmodifier : modifier? s.current.kind with
    | none =>
      rw [modifiersUpTo_stop hmodifier]
      exact hmodifier
    | some ms =>
      have hend := ne_eof_of_some rfl hmodifier
      obtain ⟨ts, hne, hts⟩ := exists_consumes hs hend (passModifier_onward seen ms s)
      rw [modifiersUpTo_step hmodifier]
      exact ih (hts.terminated hs) (hlasts.tail hts hne)

theorem carries_bodyAfter (first : Token) (ms : Modifiers) (name : Ident) (base : Option Path) :
    Carries Onward (bodyAfter first ms name base) := by
  have h := stepwise_onward
  refine carries_bind h (carries_expect h _) fun _ => ?_
  refine carries_bind h (fun s => fieldsUpTo_onward s.rest s) fun fields => ?_
  exact carries_bind h (carries_expect h _) fun last => carries_pure h _

theorem carries_typeAfter (first : Token) (ms : Modifiers) :
    Carries Onward (typeAfter first ms) := by
  have h := stepwise_onward
  refine carries_bind h (carries_ident h) fun name => ?_
  refine carries_bind h (carries_skip h _) fun based => ?_
  have hbody (base : Option Path) := carries_bodyAfter first ms name base
  cases based with
  | true => exact carries_bind h (carries_bind h (carries_path h) fun _ => carries_pure h _) hbody
  | false => exact carries_bind h (carries_pure h _) hbody

/-- A type begins with a modifier, which is passed, or with the word `type`, which is expected. -/
theorem typeDecl_onward {s : State} (hs : Terminated s.tokens)
    (hstarts : s.current.kind = .keyType ∨ modifier? s.current.kind ≠ none) :
    s.bump.Onward (typeDecl s).state := by
  have h := stepwise_onward
  have hdecl : typeDecl s =
      (expect .keyType >>= fun _ => typeAfter s.current (modifiersUpTo s.rest .empty s).1)
        (modifiersUpTo s.rest .empty s).2 := rfl
  rw [hdecl]
  rcases hstarts with htype | hmodifier
  · have hnone : modifier? s.current.kind = none := by
      rw [htype]
      rfl
    rw [modifiersUpTo_stop hnone, bind_of_ok (if_pos htype)]
    exact carries_typeAfter _ _ s.bump
  · -- The first turn of the modifiers goes past the modifier, whatever comes after it.
    obtain ⟨ms, hms⟩ := Option.ne_none_iff_exists'.1 hmodifier
    have hne := rest_ne_nil hs (ne_eof_of_some rfl hms)
    obtain ⟨p, ps, hrest⟩ := List.exists_cons_of_ne_nil hne
    have hpast (seen : Modifiers) :=
      h.trans (passModifier_onward .empty ms s) (modifiersUpTo_onward ps seen _)
    rw [hrest, modifiersUpTo_step hms]
    exact h.trans (hpast _) (carries_bind h (carries_expect h _) (fun _ => carries_typeAfter _ _) _)

/-! ## Declarations -/

/-- Where the declarations of a unit end. -/
def EndsUnit (kind : Token.Kind) : Prop := kind = .eof

instance : DecidablePred EndsUnit := fun kind => inferInstanceAs (Decidable (kind = .eof))

/-- The loop over the declarations of a unit, turn by turn. -/
def itemTurn : State → List Item × State := turn item recoverItem

theorem carries_constAfter (first : Token) : Carries Onward (constAfter first) := by
  have h := stepwise_onward
  refine carries_bind h (carries_ident h) fun name => ?_
  refine carries_bind h (carries_expect h _) fun _ => ?_
  refine carries_bind h (carries_expression h) fun value => ?_
  exact carries_bind h (carries_expect h _) fun last => carries_pure h _

/-- Every declaration, and everything that is none, is read past its first token. -/
theorem item_onward {s : State} (hs : Terminated s.tokens) : s.bump.Onward (item s).state := by
  rw [item_eq]
  have htype (hstarts : s.current.kind = .keyType ∨ modifier? s.current.kind ≠ none) :
      s.bump.Onward ((Item.type <$> typeDecl) s).state := by
    rw [state_map]
    exact typeDecl_onward hs hstarts
  cases hkind : s.current.kind with
  | keyConst =>
    change s.bump.Onward ((Item.const <$> constDecl) s).state
    rw [state_map]
    exact carries_constAfter s.current s.bump
  | keyType => exact htype (.inl hkind)
  | keySealed => exact htype (.inr (by rw [hkind]; exact nofun))
  | keyAbstract => exact htype (.inr (by rw [hkind]; exact nofun))
  | _ => exact stepwise_onward.refl _

theorem itemTurn_onward {s : State} (hs : Terminated s.tokens) : s.bump.Onward (itemTurn s).2 :=
  turn_onward (fun t => skipItem_onward t.rest 0 t) (item_onward hs)

theorem itemsUpTo_eq (bound : List Piece) :
    ∀ s, itemsUpTo bound s = turnsUpTo EndsUnit itemTurn bound s := by
  induction bound with
  | nil => exact fun _ => rfl
  | cons p bound ih =>
    intro s
    rw [itemsUpTo, turnsUpTo]
    simp only [← ih]
    unfold itemTurn turn
    cases item s with
    | ok a t => rfl
    | error e t => rfl

end Reader

open Reader State

/-! ## Units -/

/--
What reading does from a state with an end ahead. Every turn of the two loops with errors in them
goes past a token, recovery stops at the end at the latest, and no bound is what ends a loop.
-/
structure State.Advances (s : State) : Prop where
  item : s.current.kind ≠ .eof → ∃ ts, ts ≠ [] ∧ s.Consumes ts (itemTurn s).2
  recoverItem : ∃ ts, s.Consumes ts s.recoverItem ∧ RestOfItem 0 ts s.recoverItem.current
  field : ¬ EndsBody s.current.kind → ∃ ts, ts ≠ [] ∧ s.Consumes ts (fieldTurn s).2
  recoverField : ∃ ts, s.Consumes ts s.recoverField ∧ RestOfField ts s.recoverField.current
  fields : ∃ chunks, Turns EndsBody fieldTurn s chunks (fieldsUpTo s.rest s).1
    (fieldsUpTo s.rest s).2
  modifiers : modifier? (modifiers s).state.current.kind = none
  sum (bound : Nat) {o : Operand} {t : State} : sum (unary bound) s = .ok o t →
    additive? t.current.kind = none
  product (bound : Nat) {o : Operand} {t : State} :
    joined multiplicative? (unary bound) s = .ok o t → multiplicative? t.current.kind = none

theorem State.advances {s : State} (hs : Terminated s.tokens) : s.Advances := by
  have hunary (bound : Nat) : Carries Onward (unary bound) := carries_unary stepwise_onward bound
  exact {
    item := fun hend => exists_consumes hs hend (itemTurn_onward hs)
    recoverItem := recoverItem_consumes hs
    field := fun hstop => exists_consumes hs (not_or.1 hstop).2 (fieldTurn_onward hs hstop)
    recoverField := recoverField_consumes hs
    fields := by
      rw [fieldsUpTo_eq]
      exact turns_turnsUpTo (.inr rfl) fieldTurn_onward s.rest hs s.lasts_rest
    modifiers := modifiersUpTo_stops s.rest hs s.lasts_rest
    sum := fun bound => joined_stops rfl (carries_joined stepwise_onward (hunary bound)) hs
    product := fun bound => joined_stops rfl (hunary bound) hs }

/--
The unit that these pieces are read as is what the loop over declarations reads, turn by turn. It
ends at the end, with every token before that gone past in one of the turns.
-/
def ReadsThrough (pieces : List Piece) : Prop :=
  ∃ chunks items t, Turns EndsUnit itemTurn (State.ofPieces pieces) chunks items t ∧
    ofPieces pieces =
      (⟨items, (State.ofPieces pieces).current.span.merge t.current.span⟩, t.errors.toList) ∧
    t.current.kind = .eof ∧ chunks.flatten ++ [t.current] = tokensOf pieces

theorem tokens_ofPieces {pieces : List Piece} (h : tokensOf pieces ≠ []) :
    (State.ofPieces pieces).tokens = tokensOf pieces :=
  (tokens_seek _ pieces).trans (if_neg h)

theorem readsThrough {pieces : List Piece} (h : Terminated (tokensOf pieces)) :
    ReadsThrough pieces := by
  have htokens := tokens_ofPieces h.ne_nil
  have hs : Terminated (State.ofPieces pieces).tokens := htokens ▸ h
  have heof : EndsUnit .eof := rfl
  obtain ⟨chunks, hturns⟩ := turns_turnsUpTo heof (fun hs _ => itemTurn_onward hs)
    (State.ofPieces pieces).rest hs (lasts_rest _)
  rw [← itemsUpTo_eq] at hturns
  have hend : (itemsUpTo _ _).2.current.kind = .eof := hturns.stops_at
  refine ⟨chunks, _, _, hturns, rfl, hend, ?_⟩
  rw [← htokens, hturns.consumes, tokens, (hturns.consumes.terminated hs).eof_iff.1 hend]

theorem ofPieces_progress {pieces : List Piece} (h : Terminated (tokensOf pieces)) :
    (∀ s : State, Terminated s.tokens → s.Advances) ∧ ReadsThrough pieces :=
  ⟨fun _ hs => State.advances hs, readsThrough h⟩

/-- `x type { ;` with a character in front that belongs to no token. -/
def strayPieces : List Piece :=
  [.error ⟨.unexpectedChar '?', ⟨1, 1, 1⟩⟩, .token ⟨.identifier, "x", ⟨1, 2, 1⟩⟩,
    .token ⟨.keyType, "type", ⟨1, 4, 4⟩⟩, .token ⟨.leftBrace, "\x7b", ⟨1, 9, 1⟩⟩,
    .token ⟨.semicolon, ";", ⟨1, 11, 1⟩⟩, .token (.endAt 1 12)]

theorem ofPieces_progress_strayPieces :
    Terminated (tokensOf strayPieces) ∧ (State.ofPieces strayPieces).Advances ∧
      ReadsThrough strayPieces ∧ (ofPieces strayPieces).1.items = [] ∧
      (ofPieces strayPieces).2.length = 3 := by
  have hend : Terminated (tokensOf strayPieces) :=
    ⟨(tokensOf strayPieces).dropLast, .endAt 1 12, rfl, rfl, by decide⟩
  obtain ⟨hadvances, hreads⟩ := ofPieces_progress hend
  exact ⟨hend, hadvances _ hend, hreads, by decide +kernel, by decide +kernel⟩

/-! ## Sources -/

theorem terminated_of_endsOnce {pieces : List Piece} (h : EndsOnce pieces) :
    Terminated (tokensOf pieces) := by
  obtain ⟨before, line, col, rfl, hbefore⟩ := h
  refine ⟨tokensOf before, .endAt line col, List.filterMap_append, rfl, fun t ht => ?_⟩
  obtain ⟨p, hp, ht⟩ := List.mem_filterMap.1 ht
  cases p with
  | token u =>
    cases ht
    exact hbefore _ hp
  | error e => cases ht

/-- Whatever the text of a source is, all its tokens are gone past. -/
theorem readsThrough_ofSource (source : String) : ReadsThrough (Token.ofSource source) :=
  readsThrough (terminated_of_endsOnce (Token.endsOnce_ofSource source))

end Script
end Linkage
