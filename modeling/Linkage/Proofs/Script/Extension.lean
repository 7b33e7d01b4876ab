import Linkage.Proofs.Script.Derivation
import Linkage.Proofs.Script.Layout
import Linkage.Proofs.Script.Parses
import Linkage.Proofs.Token.Spaced

/-!
# Linkage.Proofs.Script.Extension

Names in sources, and the source `type u extends n.t {}`.

* `Token.Word`, `Token.Identifier` — what is spelled like a name, and what of it is no keyword.
* `identifier_of_declared` — a type is declared under an identifier.
* `parse_extension` — how the source is read if all three names are identifiers.
* `parse_extension_keyword` — there is an error if the module is called by a keyword.
-/

namespace Linkage
namespace Token

/-! ## Words -/

/-- `[A-Za-z_][A-Za-z0-9_]*` -/
def Word (w : String) : Prop :=
  ∃ c cs, w.toList = c :: cs ∧ isIdentStart c = true ∧ ∀ d ∈ cs, isIdentContinue d = true

/-- The kind of the token that a word is. -/
def wordKind (w : String) : Kind := (Kind.ofKeyword? w).getD .identifier

theorem ofKeyword?_ne_identifier {w : String} {kind : Kind} (h : Kind.ofKeyword? w = some kind) :
    kind ≠ .identifier := by
  unfold Kind.ofKeyword? at h
  split at h <;> cases h <;> decide

theorem wordKind_eq_identifier {w : String} :
    wordKind w = .identifier ↔ Kind.ofKeyword? w = none := by
  unfold wordKind
  cases h : Kind.ofKeyword? w with
  | none => exact iff_of_true rfl rfl
  | some kind => exact iff_of_false (ofKeyword?_ne_identifier h) nofun

theorem isDigit_of_start {c : Char} (h : isIdentStart c = true) : c.isDigit = false := by
  rw [Bool.eq_false_iff]
  intro hdigit
  rw [isDigit_iff] at hdigit
  rw [isIdentStart, Bool.or_eq_true, isAlpha_iff, beq_iff_eq] at h
  rcases h with h | rfl
  · omega
  · exact absurd hdigit (by decide)

theorem munch_word {c : Char} {cs es : List Char} (hc : isIdentStart c = true)
    (hcs : ∀ d ∈ cs, isIdentContinue d = true)
    (hes : ∀ d, es.head? = some d → isIdentContinue d = false) :
    munch c (cs ++ es) = (.token (wordKind (String.ofList (c :: cs))), cs.length) := by
  have hne {d : Char} (hd : isIdentStart d = false) : c ≠ d := by
    rintro rfl
    rw [hc] at hd
    cases hd
  have hstop : es.takeWhile isIdentContinue = [] := by
    cases es with
    | nil => rfl
    | cons e es => exact List.takeWhile_cons_of_neg (by simp [hes e rfl])
  have hrun : run isIdentContinue (cs ++ es) = cs.length := by
    rw [run, List.takeWhile_append_of_pos hcs, hstop, List.append_nil]
  rw [munch, if_neg (fun h => hne (by decide) h.1), if_neg (fun h => hne (by decide) h.1),
    if_neg (hne (by decide)), if_neg (by simp [isDigit_of_start hc]), if_pos hc, hrun]
  dsimp only
  rw [List.take_left]
  rfl

theorem Word.scan {w : String} (hw : Word w) {es : List Char}
    (hes : ∀ d, es.head? = some d → isIdentContinue d = false) (p : Place) :
    scan p (w.toList ++ es) =
      .token ⟨wordKind w, w, p.span w.toList⟩ :: Token.scan (p.advance w.toList) es := by
  obtain ⟨c, cs, hchars, hc, hcs⟩ := hw
  have hname : String.ofList (c :: cs) = w := by rw [← hchars, String.ofList_toList]
  rw [hchars, List.cons_append, scan_munch p (munch_word hc hcs hes), List.take_left,
    List.drop_left, hname]

/-- No white space is needed after a mark which cannot begin a comment. -/
theorem scan_mark {c : Char} {kind : Kind} (h : Kind.ofPunctuation? c = some kind) (hc : c ≠ '/')
    (p : Place) (es : List Char) :
    scan p (c :: es) =
      .token ⟨kind, String.ofList [c], p.span [c]⟩ :: scan (p.advance [c]) es := by
  have hother : c ≠ '"' ∧ c.isDigit = false ∧ isIdentStart c = false := by
    unfold Kind.ofPunctuation? at h
    split at h <;> first | decide | cases h
  obtain ⟨hquote, hdigit, hstart⟩ := hother
  have hmunch : munch c es = (.token kind, 0) := by
    rw [munch, if_neg (fun h => hc h.1), if_neg (fun h => hc h.1), if_neg hquote,
      if_neg (by simp [hdigit]), if_neg (by simp [hstart]), h]
  exact scan_munch p hmunch

/-- White space before a word makes no difference but to places. -/
theorem Word.scan_space {w : String} (hw : Word w) (p : Place) (es : List Char) :
    Token.scan p (' ' :: (w.toList ++ es)) = Token.scan (p.step ' ') (w.toList ++ es) := by
  obtain ⟨c, cs, hchars, hc, -⟩ := hw
  refine scan_blank_cons p rfl ?_
  rw [hchars]
  rintro ⟨⟩
  exact absurd hc (by decide)

/-- A word that is no keyword. -/
structure Identifier (w : String) : Prop where
  word : Word w
  free : Kind.ofKeyword? w = none

theorem identifier_of_munch {c : Char} {cs : List Char} :
    (munch c cs).1 = .token .identifier →
      Identifier (String.ofList (c :: cs.take (munch c cs).2)) := by
  intro h
  have hall := isIdentContinue_of_munch rfl h
  revert h hall
  fun_cases munch c cs with
  | case6 _ _ _ _ hstart n word =>
    intro h hall
    refine ⟨⟨c, cs.take n, String.toList_ofList, hstart, fun d hd => ?_⟩, ?_⟩
    · exact hall d (List.mem_cons_of_mem c hd)
    · exact wordKind_eq_identifier.1 (Munch.token.inj h)
  | case4 _ _ _ n closed => cases closed <;> rintro ⟨⟩
  | case5 =>
    intro hnumber
    exact absurd (isWord_munchNumber hnumber) (by decide)
  | case7 _ _ _ _ _ kind hkind =>
    rintro ⟨⟩
    exact absurd (isWord_ofPunctuation? hkind) (by decide)
  | _ => rintro ⟨⟩

theorem identifier_of_mem_scan (p : Place) (cs : List Char) {t : Token} :
    .token t ∈ scan p cs → t.kind = .identifier → Identifier t.lexeme := by
  fun_induction scan p cs with
  | case1 =>
    intro ht hkind
    cases List.mem_singleton.1 ht
    cases hkind
  | case2 _ _ _ _ _ _ _ _ _ _ _ ih => exact ih
  | case3 p cs blank q c rest hrest n text next kind hmunch ih =>
    intro ht hkind
    rcases List.mem_cons.1 ht with ht | ht
    · cases ht
      obtain rfl : kind = .identifier := hkind
      have hname := identifier_of_munch (congrArg Prod.fst hmunch)
      rwa [hmunch] at hname
    · exact ih ht hkind
  | case4 p cs blank q c rest hrest n text next cause hmunch ih =>
    intro ht hkind
    rcases List.mem_cons.1 ht with ht | ht
    · cases ht
    · exact ih ht hkind

end Token

/-! ## Declared names -/

namespace Script

theorem TypeOf.name {ts : List Token} {t : TypeDecl} (h : TypeOf ts t) :
    ∃ x ∈ ts, x.kind = .identifier ∧ t.name = identOf x := by
  cases h with
  | type _ _ _ _ hx => exact ⟨_, by simp, hx, rfl⟩

theorem identifier_of_declared {text : String} {script : Script} (h : parse? text = .ok script)
    {t : TypeDecl} (ht : .type t ∈ script.items) : Token.Identifier t.name.name := by
  obtain ⟨ts, line, col, hlex, hscript⟩ := derives_of_parse? h
  obtain ⟨us, hus, hmem⟩ := itemOf_of_mem hscript _ ht
  cases hus with
  | type hus =>
    obtain ⟨x, hx, hkind, hname⟩ := hus.name
    rw [hname]
    refine Token.identifier_of_mem_scan .start text.toList ?_ hkind
    rw [← Token.ofSource, hlex]
    exact List.mem_map_of_mem (List.mem_append_left _ (hmem x hx))

/-- Behind `extends` there is an identifier. -/
theorem ScriptOf.base {key x ext m : Token} {ts : List Token} {items : List Item}
    (h : ScriptOf (key :: x :: ext :: m :: ts) items) (hkey : key.kind = .keyType)
    (hext : ext.kind = .keyExtends) : m.kind = .identifier := by
  generalize hall : key :: x :: ext :: m :: ts = all at h
  cases h with
  | nil => cases hall
  | cons hi _ =>
    cases hi with
    | const hc =>
      cases hc with
      | const hconst =>
        obtain ⟨rfl, -⟩ := List.cons.inj hall
        cases hkey.symm.trans hconst
    | type ht =>
      cases ht with
      | type hms _ _ hkind _ hbase hopening =>
        cases hms with
        | cons hm _ =>
          cases hm with
          | sealed hsealed =>
            obtain ⟨rfl, -⟩ := List.cons.inj hall
            cases hkey.symm.trans hsealed
          | abstract habstract =>
            obtain ⟨rfl, -⟩ := List.cons.inj hall
            cases hkey.symm.trans habstract
        | nil =>
          cases hbase with
          | none =>
            simp only [List.nil_append, List.cons_append, List.cons.injEq] at hall
            obtain ⟨-, -, rfl, -⟩ := hall
            cases hext.symm.trans hopening
          | «extends» _ hpath =>
            cases hpath with
            | bare hname =>
              simp only [List.nil_append, List.cons_append, List.cons.injEq] at hall
              obtain ⟨-, -, -, rfl, -⟩ := hall
              exact hname
            | qualified hname _ _ =>
              simp only [List.nil_append, List.cons_append, List.cons.injEq] at hall
              obtain ⟨-, -, -, rfl, -⟩ := hall
              exact hname

/-! ## A type that extends one of another module -/

/-- The source `type u extends n.t {}`. -/
def extension (u n t : String) : String :=
  "type " ++ u ++ " extends " ++ n ++ "." ++ t ++ " \x7b\x7d"

/-- Its tokens without their places. -/
def extensionTokens (u n t : String) : List Token :=
  [⟨.keyType, "type", nowhere⟩, ⟨Token.wordKind u, u, nowhere⟩, ⟨.keyExtends, "extends", nowhere⟩,
    ⟨Token.wordKind n, n, nowhere⟩, ⟨.dot, ".", nowhere⟩, ⟨Token.wordKind t, t, nowhere⟩,
    ⟨.leftBrace, "\x7b", nowhere⟩, ⟨.rightBrace, "\x7d", nowhere⟩]

open Token in
theorem ofSource_extension {u n t : String} (hu : Word u) (hn : Word n) (ht : Word t) :
    (ofSource (extension u n t)).map Piece.unplaced =
      (extensionTokens u n t ++ [Token.endAt 0 0]).map .token := by
  have hchars : (extension u n t).toList =
      "type".toList ++ ' ' :: (u.toList ++ ' ' :: ("extends".toList ++ ' ' ::
        (n.toList ++ '.' :: (t.toList ++ ' ' :: '\x7b' :: ['\x7d'])))) := by
    simp [extension, String.toList_append]
  have htype : Word "type" := ⟨'t', ['y', 'p', 'e'], by decide, rfl, List.all_eq_true.1 rfl⟩
  have hextends : Word "extends" :=
    ⟨'e', ['x', 't', 'e', 'n', 'd', 's'], by decide, rfl, List.all_eq_true.1 rfl⟩
  have hspace {es : List Char} : ∀ d, (' ' :: es).head? = some d → isIdentContinue d = false := by
    rintro d ⟨⟩
    decide
  have hdot {es : List Char} : ∀ d, ('.' :: es).head? = some d → isIdentContinue d = false := by
    rintro d ⟨⟩
    decide
  have hpoint : Kind.ofPunctuation? '.' = some .dot := rfl
  have hopening : Kind.ofPunctuation? '\x7b' = some .leftBrace := rfl
  have hclosing : Kind.ofPunctuation? '\x7d' = some .rightBrace := rfl
  rw [ofSource, hchars, htype.scan hspace, hu.scan_space, hu.scan hspace, hextends.scan_space,
    hextends.scan hspace, hn.scan_space, hn.scan hdot, scan_mark hpoint (by decide),
    ht.scan hspace, scan_blank_cons _ rfl (by decide), scan_mark hopening (by decide),
    scan_mark hclosing (by decide), scan_end rfl]
  rfl

/-- What it declares, without places. -/
def TypeDecl.extending (u n t : String) : TypeDecl :=
  ⟨.empty, ⟨u, nowhere⟩, some ⟨some ⟨n, nowhere⟩, ⟨t, nowhere⟩⟩, [], nowhere⟩

theorem scriptOf_extension {u n t : String} (hu : Token.Identifier u) (hn : Token.Identifier n)
    (ht : Token.Identifier t) :
    ScriptOf (extensionTokens u n t) [.type (.extending u n t)] := by
  have hkind {w : String} (hw : Token.Identifier w) : Token.wordKind w = .identifier :=
    Token.wordKind_eq_identifier.2 hw.free
  have hbase : BaseOf [⟨.keyExtends, "extends", nowhere⟩, ⟨Token.wordKind n, n, nowhere⟩,
      ⟨.dot, ".", nowhere⟩, ⟨Token.wordKind t, t, nowhere⟩]
      (some ⟨some ⟨n, nowhere⟩, ⟨t, nowhere⟩⟩) :=
    .extends rfl (.qualified (hkind hn) rfl (hkind ht))
  have htype : TypeOf (extensionTokens u n t) (.extending u n t) :=
    .type .nil .nil rfl rfl (hkind hu) hbase rfl .nil rfl
  exact Many.cons (ItemOf.type htype) .nil

theorem parse_extension {u n t : String} (hu : Token.Identifier u) (hn : Token.Identifier n)
    (ht : Token.Identifier t) :
    ∃ (d : TypeDecl) (span : Span), parse (extension u n t) = (⟨[.type d], span⟩, []) ∧
      d.unplaced = .extending u n t := by
  have htokens : (Token.ofSource (extension u n t)).map Piece.unplaced =
      ((extensionTokens u n t ++ [Token.endAt 0 0]).map .token).map Piece.unplaced :=
    ofSource_extension hu.word hn.word ht.word
  obtain ⟨hitems, herrors⟩ := ofPieces_blind htokens
  obtain ⟨span, hread⟩ := ofPieces_of_scriptOf (scriptOf_extension hu hn ht) 0 0
  rw [hread, ← parse] at hitems herrors
  generalize parse (extension u n t) = read at hitems herrors
  obtain ⟨⟨items, span⟩, errors⟩ := read
  obtain rfl : errors = [] := List.map_eq_nil_iff.1 herrors
  obtain ⟨i, rest, rfl, hi, hrest⟩ := List.map_eq_cons_iff.1 hitems
  obtain rfl := List.map_eq_nil_iff.1 hrest
  cases i with
  | type d => exact ⟨d, span, rfl, Item.type.inj hi⟩
  | const c => cases hi

/-- What is read without errors is derived by the grammar, which has an identifier there. -/
theorem parse_extension_keyword {u n t : String} (hu : Token.Word u) (hn : Token.Word n)
    (ht : Token.Word t) {kind : Token.Kind} (hkey : Token.Kind.ofKeyword? n = some kind) :
    (parse (extension u n t)).2 ≠ [] := by
  intro hnone
  have hparse := parse?_eq_ok.2 (Prod.ext rfl hnone : parse (extension u n t) = (_, []))
  obtain ⟨ts, line, col, hlex, hscript⟩ := derives_of_parse? hparse
  have htokens := ofSource_extension hu hn ht
  have hsame : (ts ++ [Token.endAt line col]).map Token.unplaced =
      extensionTokens u n t ++ [Token.endAt 0 0] := by
    rw [hlex, List.map_map] at htokens
    refine (List.map_inj_right fun _ _ => Piece.token.inj).1 ?_
    rw [← htokens, List.map_map]
    rfl
  rw [List.map_append] at hsame
  obtain ⟨key, ts₁, rfl, htype, hsame⟩ := List.map_eq_cons_iff.1 (List.append_inj' hsame rfl).1
  obtain ⟨x, ts₂, rfl, -, hsame⟩ := List.map_eq_cons_iff.1 hsame
  obtain ⟨ext, ts₃, rfl, hext, hsame⟩ := List.map_eq_cons_iff.1 hsame
  obtain ⟨m, ts₄, rfl, hm, -⟩ := List.map_eq_cons_iff.1 hsame
  have hname := hscript.base (congrArg Token.kind htype) (congrArg Token.kind hext)
  have hkind : Token.wordKind n = .identifier := (congrArg Token.kind hm).symm.trans hname
  rw [Token.wordKind_eq_identifier, hkey] at hkind
  cases hkind

end Script
end Linkage
