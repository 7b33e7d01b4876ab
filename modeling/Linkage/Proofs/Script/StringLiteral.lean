import Linkage.Proofs.Script.Extension

/-!
# Linkage.Proofs.Script.StringLiteral

String literals. One reader decides where a literal ends and another one resolves its escapes, and
they agree on every run of backslashes and quotes.

* `Token.Body` — what stands between the quotes of a string token.
* `body_of_stringLength`, `Body.stringLength` — a string is cut off after a body and a quote.
* `EscapedIn` — the characters that backslashes of a text take with them.
* `Body.unescape` — resolving the escapes of a body fails exactly if one of these has no meaning.
* `Written` — the ways in which a text can be written between quotes.
* `string_literals` — what is written is cut off as one token and read back as the text.
-/

namespace Linkage

namespace Token

/-! ## Where a string ends -/

/-- A backslash takes the next character with it; a quote or a line break cannot stand alone. -/
inductive Body : List Char → Prop where
  | nil : Body []
  | plain {c : Char} {cs : List Char} :
      c ≠ '\\' → c ≠ '"' → c ≠ '\n' → c ≠ '\r' → Body cs → Body (c :: cs)
  | pair {c : Char} {cs : List Char} : c ≠ '\n' → Body cs → Body ('\\' :: c :: cs)

theorem Body.stringLength {cs : List Char} (h : Body cs) (es : List Char) :
    stringLength (cs ++ '"' :: es) = (cs.length + 1, true) := by
  induction h with
  | nil => rfl
  | @plain c cs hslash hquote hfeed hreturn _ ih =>
    rw [List.cons_append, Token.stringLength, ih]
    · rfl
    · exact hquote
    · exact hfeed
    · exact hreturn
    · exact fun h _ => hslash h
    · exact fun _ _ h _ => hslash h
  | @pair c cs hfeed _ ih =>
    rw [List.cons_append, List.cons_append, Token.stringLength, if_neg hfeed, ih]
    rfl

theorem body_of_stringLength {cs : List Char} {n : Nat} : stringLength cs = (n, true) →
    ∃ body, Body body ∧ cs.take n = body ++ ['"'] := by
  fun_induction Token.stringLength cs generalizing n with
  | case1 => rintro ⟨⟩
  | case2 =>
    rintro ⟨⟩
    exact ⟨[], .nil, rfl⟩
  | case3 | case4 | case5 | case6 => rintro ⟨⟩
  | case7 d cs hd k closed hk ih =>
    rintro ⟨⟩
    obtain ⟨body, hbody, htake⟩ := ih hk
    exact ⟨'\\' :: d :: body, .pair hd hbody, by simp [htake]⟩
  | case8 d cs hquote hfeed hreturn hlast hescape k closed hk ih =>
    rintro ⟨⟩
    obtain ⟨body, hbody, htake⟩ := ih hk
    have hslash : d ≠ '\\' := by
      rintro rfl
      cases cs with
      | nil => exact hlast rfl rfl
      | cons e cs => exact hescape e cs rfl rfl
    exact ⟨d :: body, .plain hslash hquote hfeed hreturn hbody, by simp [htake]⟩

theorem Body.munch {cs : List Char} (h : Body cs) (es : List Char) :
    munch '"' (cs ++ '"' :: es) = (.token .stringLiteral, cs.length + 1) := by
  rw [Token.munch, if_neg (by simp), if_neg (by simp), if_pos rfl, h.stringLength]
  rfl

theorem ofKeyword?_ne_string {word : String} {kind : Kind} (h : Kind.ofKeyword? word = some kind) :
    kind ≠ .stringLiteral := by
  unfold Kind.ofKeyword? at h
  split at h <;> cases h <;> decide

/-- A number or a word is no string, nor is a mark. -/
theorem ne_string_of_munch {c : Char} {cs : List Char} (hc : c ≠ '"') :
    (munch c cs).1 ≠ .token .stringLiteral := by
  fun_cases Token.munch c cs with
  | case4 _ _ hquote => exact absurd hquote hc
  | case5 =>
    fun_cases munchNumber c cs with
    | _ => rintro ⟨⟩
  | case6 _ _ _ _ _ n word =>
    dsimp only
    cases hword : Kind.ofKeyword? word with
    | none => rintro ⟨⟩
    | some kind => exact fun h => ofKeyword?_ne_string hword (Munch.token.inj h)
  | case7 _ _ _ _ _ kind hkind =>
    rintro ⟨⟩
    unfold Kind.ofPunctuation? at hkind
    split at hkind <;> cases hkind
  | _ => rintro ⟨⟩

theorem body_of_munch {c : Char} {cs : List Char} (h : (munch c cs).1 = .token .stringLiteral) :
    ∃ body, Body body ∧ c :: cs.take (munch c cs).2 = '"' :: (body ++ ['"']) := by
  by_cases hc : c = '"'
  · subst hc
    rw [Token.munch, if_neg (by simp), if_neg (by simp), if_pos rfl] at h ⊢
    dsimp only at h ⊢
    split at h
    · rename_i hclosed
      obtain ⟨body, hbody, htake⟩ := body_of_stringLength (Prod.ext rfl hclosed)
      exact ⟨body, hbody, congrArg _ htake⟩
    · cases h
  · exact absurd h (ne_string_of_munch hc)

/-- Every string token has a body between its quotes. -/
theorem body_of_mem_ofSource {source : String} {t : Token} (ht : .token t ∈ ofSource source)
    (hkind : t.kind = .stringLiteral) :
    ∃ body, Body body ∧ t.lexeme.toList = '"' :: (body ++ ['"']) := by
  have hwhole := whole_of_mem_scan .start source.toList ht (by simp [hkind])
  rw [hkind] at hwhole
  generalize t.lexeme.toList = text at hwhole
  cases hwhole with
  | @intro c cs _ _ hmunch =>
    have hend := hmunch [] breaks_nil
    rw [List.append_nil] at hend
    obtain ⟨body, hbody, htake⟩ := body_of_munch (congrArg Prod.fst hend)
    rw [hend, List.take_length] at htake
    exact ⟨body, hbody, htake⟩

end Token

namespace Script

/-! ## Escapes -/

/-- How many backslashes the text ends with. -/
def backslashes (cs : List Char) : Nat := (cs.reverse.takeWhile (· == '\\')).length

/--
A backslash takes this character with it. The backslash is not itself taken by one before it: those
right before it are even in number, so that they go together in pairs.
-/
def EscapedIn (cs : List Char) (c : Char) : Prop :=
  ∃ before after, cs = before ++ '\\' :: c :: after ∧ backslashes before % 2 = 0

theorem backslashes_le (cs : List Char) : backslashes cs ≤ cs.length := by
  rw [backslashes]
  exact Nat.le_trans (List.takeWhile_prefix _).length_le (Nat.le_of_eq List.length_reverse)

/-- One more character in front counts only where all the others are backslashes. -/
theorem backslashes_cons (c : Char) (cs : List Char) :
    backslashes (c :: cs) =
      if backslashes cs = cs.length ∧ c = '\\' then cs.length + 1 else backslashes cs := by
  simp only [backslashes, List.reverse_cons, List.takeWhile_append, List.length_reverse]
  by_cases hall : (cs.reverse.takeWhile (· == '\\')).length = cs.length
  · by_cases hc : c = '\\'
    · simp [hall, hc]
    · simp [hall, hc]
  · simp [hall]

theorem not_escapedIn_nil (c : Char) : ¬ EscapedIn [] c := by
  rintro ⟨before, after, heq, -⟩
  simp at heq

theorem escapedIn_plain {d : Char} (hd : d ≠ '\\') {cs : List Char} {c : Char} :
    EscapedIn (d :: cs) c ↔ EscapedIn cs c := by
  have hsame (before : List Char) : backslashes (d :: before) = backslashes before := by
    rw [backslashes_cons, if_neg fun h => hd h.2]
  constructor
  · rintro ⟨before, after, heq, heven⟩
    cases before with
    | nil => exact absurd (List.cons.inj heq).1 hd
    | cons e before =>
      obtain ⟨rfl, rfl⟩ := List.cons.inj heq
      exact ⟨before, after, rfl, hsame before ▸ heven⟩
  · rintro ⟨before, after, rfl, heven⟩
    exact ⟨d :: before, after, rfl, (hsame before).symm ▸ heven⟩

theorem escapedIn_pair {d : Char} {cs : List Char} {c : Char} :
    EscapedIn ('\\' :: d :: cs) c ↔ c = d ∨ EscapedIn cs c := by
  have hsame (before : List Char) :
      backslashes ('\\' :: d :: before) % 2 = backslashes before % 2 := by
    have hle := backslashes_le before
    rw [backslashes_cons, backslashes_cons, List.length_cons]
    split <;> split at * <;> grind
  constructor
  · rintro ⟨before, after, heq, heven⟩
    match before, heq with
    | [], heq => exact .inl (List.cons.inj (List.cons.inj heq).2).1.symm
    | [_], heq =>
      obtain ⟨rfl, -⟩ := List.cons.inj heq
      exact absurd heven (by decide)
    | e :: f :: before, heq =>
      obtain ⟨he, heq⟩ := List.cons.inj heq
      obtain ⟨rfl, rfl⟩ := List.cons.inj heq
      rw [← he] at heven
      exact .inr ⟨before, after, rfl, hsame before ▸ heven⟩
  · rintro (rfl | ⟨before, after, rfl, heven⟩)
    · exact ⟨[], cs, rfl, rfl⟩
    · exact ⟨'\\' :: d :: before, after, rfl, (hsame before).symm ▸ heven⟩

/-- The characters that mean something after a backslash. -/
theorem escape?_eq_none {c : Char} :
    escape? c = none ↔ c ∉ ['n', 't', 'r', '0', '\\', '"'] := by
  unfold escape?
  split <;> simp_all

/--
By induction on the body: its escapes are resolved, or the first one without a meaning is what is
wrong with it. No backslash is left without a character.
-/
theorem unescape_body {cs : List Char} (h : Token.Body cs) :
    ((∃ ds, unescape cs = .ok ds) ∧ ∀ c, EscapedIn cs c → escape? c ≠ none) ∨
      ∃ c, unescape cs = .error (some c) ∧ EscapedIn cs c ∧ escape? c = none := by
  induction h with
  | nil => exact .inl ⟨⟨[], rfl⟩, fun c hc => absurd hc (not_escapedIn_nil c)⟩
  | @plain d cs hslash _ _ _ _ ih =>
    have hstep : unescape (d :: cs) = (unescape cs).map (d :: ·) := by
      rw [unescape]
      · cases unescape cs <;> rfl
      · exact fun h _ => hslash h
      · exact fun _ _ h _ => hslash h
    rcases ih with ⟨⟨ds, hds⟩, hall⟩ | ⟨c, herror, hc, hnone⟩
    · exact .inl ⟨⟨d :: ds, by rw [hstep, hds]; rfl⟩,
        fun c hc => hall c ((escapedIn_plain hslash).1 hc)⟩
    · exact .inr ⟨c, by rw [hstep, herror]; rfl, (escapedIn_plain hslash).2 hc, hnone⟩
  | @pair d cs _ _ ih =>
    cases hd : escape? d with
    | none => exact .inr ⟨d, by rw [unescape, hd], escapedIn_pair.2 (.inl rfl), hd⟩
    | some e =>
      rcases ih with ⟨⟨ds, hds⟩, hall⟩ | ⟨c, herror, hc, hnone⟩
      · refine .inl ⟨⟨e :: ds, by rw [unescape, hd, hds]⟩, fun c hc => ?_⟩
        rcases escapedIn_pair.1 hc with rfl | hc
        · simp [hd]
        · exact hall c hc
      · exact .inr ⟨c, by rw [unescape, hd, herror], escapedIn_pair.2 (.inr hc), hnone⟩

/-! ## Writing a text -/

/--
The first text, written between quotes, can be the second one. What would end the literal or start
an escape has to be escaped, and whatever has an escape may be.
-/
inductive Written : List Char → List Char → Prop where
  | nil : Written [] []
  | plain {c : Char} {s text : List Char} :
      c ∉ ['\\', '"', '\n', '\r'] → Written s text → Written (c :: s) (c :: text)
  | escaped {c e : Char} {s text : List Char} :
      (e, c) ∈ escapes → Written s text → Written (c :: s) ('\\' :: e :: text)

theorem Written.body {s text : List Char} (h : Written s text) : Token.Body text := by
  induction h with
  | nil => exact .nil
  | plain hc _ ih =>
    simp only [List.mem_cons, List.not_mem_nil, or_false, not_or] at hc
    exact .plain hc.1 hc.2.1 hc.2.2.1 hc.2.2.2 ih
  | escaped he _ ih =>
    refine .pair ?_ ih
    rintro rfl
    have hmem : '\n' ∈ escapes.map Prod.fst := List.mem_map_of_mem he
    exact absurd hmem (by decide)

theorem Written.quotedOf {s text : List Char} (h : Written s text) : QuotedOf text s := by
  induction h with
  | nil => exact .nil
  | plain hc _ ih => exact .plain (fun h => hc (h ▸ List.mem_cons_self)) ih
  | escaped he _ ih => exact .escaped he ih

/-- Everything can be written: what may not stand alone has an escape. -/
theorem exists_written (s : List Char) : ∃ text, Written s text := by
  induction s with
  | nil => exact ⟨[], .nil⟩
  | cons c s ih =>
    obtain ⟨text, htext⟩ := ih
    by_cases hc : c ∈ ['\\', '"', '\n', '\r']
    · have hescape : ∀ d ∈ ['\\', '"', '\n', '\r'], ∃ e, (e, d) ∈ escapes := by
        simp [escapes]
      obtain ⟨e, he⟩ := hescape c hc
      exact ⟨_, .escaped he htext⟩
    · exact ⟨_, .plain hc htext⟩

/-! ## Reading it back -/

/-- The text between quotes. -/
def literal (text : List Char) : String := String.ofList ('"' :: (text ++ ['"']))

theorem unquoted_literal (text : List Char) : unquoted (literal text) = text := by
  rw [unquoted, literal, String.toList_ofList, List.tail_cons, List.dropLast_concat]

theorem scan_literal {text : List Char} (h : Token.Body text) (p : Place) (es : List Char) :
    Token.scan p ((literal text).toList ++ es) =
      .token ⟨.stringLiteral, literal text, p.span (literal text).toList⟩ ::
        Token.scan (p.advance (literal text).toList) es := by
  have hchars : (literal text).toList = '"' :: (text ++ ['"']) := String.toList_ofList
  have hcut : text ++ '"' :: es = (text ++ ['"']) ++ es := by rw [List.append_assoc]; rfl
  have hlength : text.length + 1 = (text ++ ['"']).length := by rw [List.length_append]; rfl
  have hmunch : Token.munch '"' ((text ++ ['"']) ++ es) =
      (.token .stringLiteral, (text ++ ['"']).length) := by
    rw [← hcut, ← hlength]
    exact h.munch es
  rw [hchars, List.cons_append, Token.scan_munch p hmunch, List.take_left, List.drop_left]
  rfl

open Token in
theorem ofSource_literal {text : List Char} (h : Body text) :
    ∃ (span : Span) (last : Token), ofSource (literal text) =
      [.token ⟨.stringLiteral, literal text, span⟩, .token last] ∧ last.kind = .eof := by
  have hscan := scan_literal h .start []
  have hend : ([] : List Char).drop (blankLength []) = [] := rfl
  rw [scan_end hend, List.append_nil] at hscan
  exact ⟨_, _, hscan, rfl⟩

/-- The source `const S = "…";`. -/
def constant (text : List Char) : String := "const S = " ++ literal text ++ ";"

open Token in
theorem ofSource_constant {text : List Char} (h : Body text) :
    ∃ (p₁ p₂ p₃ p₄ p₅ : Span) (line col : UInt32), ofSource (constant text) =
      [⟨.keyConst, "const", p₁⟩, ⟨.identifier, "S", p₂⟩, ⟨.equal, "=", p₃⟩,
        ⟨.stringLiteral, literal text, p₄⟩, ⟨.semicolon, ";", p₅⟩, .endAt line col].map .token := by
  have hchars : (constant text).toList =
      "const".toList ++ ' ' :: ("S".toList ++ ' ' :: '=' :: ' ' ::
        ((literal text).toList ++ [';'])) := by
    simp [constant, String.toList_append]
  have hconst : Word "const" :=
    ⟨'c', ['o', 'n', 's', 't'], by decide, rfl, List.all_eq_true.1 rfl⟩
  have hname : Word "S" := ⟨'S', [], by decide, rfl, List.all_eq_true.1 rfl⟩
  have hspace {es : List Char} : ∀ d, (' ' :: es).head? = some d → isIdentContinue d = false := by
    rintro d ⟨⟩
    decide
  have hequal : Kind.ofPunctuation? '=' = some .equal := rfl
  have hsemicolon : Kind.ofPunctuation? ';' = some .semicolon := rfl
  have hquote (es : List Char) :
      ((literal text).toList ++ es).head? ≠ some '\ufeff' := by
    simp [literal]
  rw [ofSource, hchars, hconst.scan hspace, hname.scan_space, hname.scan hspace,
    scan_blank_cons _ rfl (by simp), scan_mark hequal (by decide),
    scan_blank_cons _ rfl (hquote _), scan_literal h, scan_mark hsemicolon (by decide),
    scan_end rfl]
  exact ⟨_, _, _, _, _, _, _, rfl⟩

theorem parse?_constant {s text : List Char} (h : Written s text) :
    ∃ (c : ConstDecl) (place span : Span), parse? (constant text) = .ok ⟨[.const c], span⟩ ∧
      c.name.name = "S" ∧ c.value = .literal (.string (String.ofList s)) place := by
  obtain ⟨p₁, p₂, p₃, p₄, p₅, line, col, htokens⟩ := ofSource_constant h.body
  have hliteral : LiteralOf ⟨.stringLiteral, literal text, p₄⟩ (.string (String.ofList s)) := by
    refine .string rfl ?_
    rw [unquoted_literal]
    exact h.quotedOf
  have hexpr := ExprOf.term (.unary (.primary (.literal hliteral)))
  have hconst := @ConstOf.const ⟨.keyConst, "const", p₁⟩ ⟨.identifier, "S", p₂⟩ ⟨.equal, "=", p₃⟩
    ⟨.semicolon, ";", p₅⟩ _ _ _ rfl rfl rfl hexpr (Nat.zero_le _) (by simp [Expr.height, maxLevels])
    rfl
  have hscript : ScriptOf _ _ := Many.cons (.const hconst) .nil
  obtain ⟨span, hread⟩ := ofPieces_of_scriptOf hscript line col
  refine ⟨⟨⟨"S", p₂⟩, .literal _ p₄, p₁.merge p₅⟩, p₄, span, parse?_eq_ok.2 ?_, rfl, rfl⟩
  rw [parse, htokens]
  exact hread

/-! ## Both readers together -/

theorem unescape_token {source : String} {t : Token} (ht : .token t ∈ Token.ofSource source)
    (hkind : t.kind = .stringLiteral) :
    ((∃ e, unescape (unquoted t.lexeme) = .error e) ↔
        ∃ c, EscapedIn (unquoted t.lexeme) c ∧ c ∉ ['n', 't', 'r', '0', '\\', '"']) ∧
      unescape (unquoted t.lexeme) ≠ .error none := by
  obtain ⟨body, hbody, hlexeme⟩ := Token.body_of_mem_ofSource ht hkind
  have hunquoted : unquoted t.lexeme = body := by
    rw [unquoted, hlexeme, List.tail_cons, List.dropLast_concat]
  rw [hunquoted]
  rcases unescape_body hbody with ⟨⟨ds, hok⟩, hall⟩ | ⟨c, herror, hc, hnone⟩
  · rw [hok]
    refine ⟨iff_of_false nofun ?_, nofun⟩
    rintro ⟨c, hc, hmeaning⟩
    exact hall c hc (escape?_eq_none.2 hmeaning)
  · rw [herror]
    exact ⟨iff_of_true ⟨_, rfl⟩ ⟨c, hc, escape?_eq_none.1 hnone⟩, nofun⟩

/--
Every text can be written as a literal. However it is written, the literal is one token, and the
constant with this value has the text itself for its value. On any string token of any source, the
escapes cannot be resolved exactly if a backslash stands before a character without a meaning, and
not because there is none after it.
-/
theorem string_literals :
    (∀ s : String, (∃ text, Written s.toList text) ∧
      ∀ text, Written s.toList text →
        (∃ (span : Span) (last : Token), Token.ofSource (literal text) =
          [.token ⟨.stringLiteral, literal text, span⟩, .token last] ∧ last.kind = .eof) ∧
        ∃ (c : ConstDecl) (place span : Span),
          parse? (constant text) = .ok ⟨[.const c], span⟩ ∧ c.name.name = "S" ∧
            c.value = .literal (.string s) place) ∧
      ∀ (source : String) (t : Token), .token t ∈ Token.ofSource source →
        t.kind = .stringLiteral →
        ((∃ e, unescape (unquoted t.lexeme) = .error e) ↔
          ∃ c, EscapedIn (unquoted t.lexeme) c ∧ c ∉ ['n', 't', 'r', '0', '\\', '"']) ∧
        unescape (unquoted t.lexeme) ≠ .error none := by
  refine ⟨fun s => ⟨exists_written _, fun text h => ⟨ofSource_literal h.body, ?_⟩⟩,
    fun source t ht hkind => unescape_token ht hkind⟩
  have hread := parse?_constant h
  rwa [String.ofList_toList] at hread

/--
A tab as it is and escaped, a character of three bytes, a quote and a backslash; and a literal with
a pair of backslashes before an escape that there is not.
-/
theorem string_literals_mixed :
    Written "\t\"\t→\\".toList ['\t', '\\', '"', '\\', 't', '→', '\\', '\\'] ∧
      (∃ (c : ConstDecl) (place span : Span),
        parse? "const S = \"\t\\\"\\t→\\\\\";" = .ok ⟨[.const c], span⟩ ∧ c.name.name = "S" ∧
          c.value = .literal (.string "\t\"\t→\\") place) ∧
      .token ⟨.stringLiteral, "\"\\\\\\q\"", ⟨1, 1, 6⟩⟩ ∈ Token.ofSource "\"\\\\\\q\"" ∧
      ∃ e, unescape (unquoted "\"\\\\\\q\"") = .error e := by
  have htext : Written "\t\"\t→\\".toList ['\t', '\\', '"', '\\', 't', '→', '\\', '\\'] :=
    .plain (by decide) (.escaped (by decide) (.escaped (by decide) (.plain (by decide)
      (.escaped (by decide) .nil))))
  have htoken : .token ⟨.stringLiteral, "\"\\\\\\q\"", ⟨1, 1, 6⟩⟩ ∈
      Token.ofSource "\"\\\\\\q\"" := by
    decide +kernel
  exact ⟨htext, ((string_literals.1 _).2 _ htext).2, htoken,
    (string_literals.2 _ _ htoken rfl).1.2 ⟨'q', ⟨['\\', '\\'], [], by decide, rfl⟩, by decide⟩⟩

end Script
end Linkage
