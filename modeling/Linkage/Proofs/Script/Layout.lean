import Linkage.Proofs.Script.Recovery
import Linkage.Proofs.Token.Spaced

/-!
# Linkage.Proofs.Script.Layout

`parse_spaced`: where the tokens of a source stand has no effect on what is read from it.

Erasing all places from a stream of tokens before it is read gives what erasing them from the
result gives, so no reader can look at them.

* `State.unplaced`, `Reply.unplaced` — states and replies without places.
* `Blind f r r'` — without places `r'` gives what `r` gives, up to `f`.
* `blind_expression`, `blind_typeDecl`, `blind_item` — one lemma for each reader.
* `ofPieces_blind` — streams that only differ in places are read as the same, errors included.
-/

namespace Linkage

open Script (nowhere)

/-! ## Without places -/

def Token.unplaced (t : Token) : Token := ⟨t.kind, t.lexeme, nowhere⟩

/-- What cannot be cut into tokens keeps its place, which its message names. -/
def Piece.unplaced : Piece → Piece
  | .token t => .token t.unplaced
  | .error e => .error e

namespace ParseError

def unplaced (e : ParseError) : ParseError :=
  match e.cause with
  | .lexical _ => e
  | .expectedToken wanted found => ⟨.expectedToken wanted found.unplaced, nowhere⟩
  | .expectedDeclaration found => ⟨.expectedDeclaration found.unplaced, nowhere⟩
  | .expectedIdentifier found => ⟨.expectedIdentifier found.unplaced, nowhere⟩
  | .expectedExpression found => ⟨.expectedExpression found.unplaced, nowhere⟩
  | .duplicateModifier found => ⟨.duplicateModifier found.unplaced, nowhere⟩
  | .invalidEscape escaped => ⟨.invalidEscape escaped, nowhere⟩
  | .tooManyLevels => ⟨.tooManyLevels, nowhere⟩

/-- What an error says, without where it was found. -/
theorem says_unplaced (e : ParseError) :
    e.unplaced.category = e.category ∧ e.unplaced.message = e.message := by
  obtain ⟨cause, span⟩ := e
  cases cause <;> exact ⟨rfl, rfl⟩

end ParseError

namespace Script

theorem merge_nowhere : nowhere.merge nowhere = nowhere := by decide

theorem Path.span_unplaced (p : Path) : p.unplaced.span = nowhere := by
  obtain ⟨qualifier, name⟩ := p
  cases qualifier with
  | none => rfl
  | some q => exact merge_nowhere

theorem Expr.span_unplaced (e : Expr) : e.unplaced.span = nowhere := by
  cases e with
  | path p => exact p.span_unplaced
  | _ => rfl

def Operand.unplaced (o : Operand) : Operand := ⟨o.expr.unplaced, o.height⟩

/-! ## States -/

namespace State

def unplaced (s : State) : State :=
  ⟨s.current.unplaced, s.rest.map Piece.unplaced, s.nesting,
    (s.errors.toList.map ParseError.unplaced).toArray⟩

theorem unplaced_report (s : State) (e : ParseError) :
    (s.report e).unplaced = s.unplaced.report e.unplaced := by
  simp [unplaced, report]

theorem unplaced_seek (s : State) (pieces : List Piece) :
    (s.seek pieces).unplaced = s.unplaced.seek (pieces.map Piece.unplaced) := by
  fun_induction seek s pieces with
  | case1 => rfl
  | case2 s e pieces ih =>
    rw [ih, List.map_cons, Piece.unplaced, seek]
    exact congrArg (seek · _) (s.unplaced_report (.ofLexError e))
  | case3 => rfl

theorem unplaced_bump (s : State) : s.bump.unplaced = s.unplaced.bump := s.unplaced_seek s.rest

theorem unplaced_skipField (bound : List Piece) (s : State) :
    (skipField bound s).unplaced = skipField (bound.map Piece.unplaced) s.unplaced := by
  induction bound generalizing s with
  | nil => rfl
  | cons p bound ih =>
    have hkind : s.unplaced.current.kind = s.current.kind := rfl
    by_cases hstop : s.current.kind = .eof ∨ s.current.kind = .rightBrace
    · rw [skipField_stop hstop, skipField_stop (hkind ▸ hstop)]
    · obtain ⟨hend, hbrace⟩ := not_or.1 hstop
      rw [List.map_cons, skipField_step hend hbrace, skipField_step (hkind ▸ hend) (hkind ▸ hbrace),
        hkind, ← unplaced_bump, ← ih]
      split
      · rfl
      · rfl

theorem unplaced_skipItem (bound : List Piece) (depth : Nat) (s : State) :
    (skipItem bound depth s).unplaced = skipItem (bound.map Piece.unplaced) depth s.unplaced := by
  induction bound generalizing depth s with
  | nil => rfl
  | cons p bound ih =>
    have hkind : s.unplaced.current.kind = s.current.kind := rfl
    by_cases hstop : s.current.kind = .eof ∨ s.current.kind.startsItem = true ∧ depth = 0
    · rw [skipItem_stop hstop, skipItem_stop (hkind ▸ hstop)]
    · obtain ⟨hend, hitem⟩ := not_or.1 hstop
      rw [List.map_cons, skipItem_step hend hitem, skipItem_step (hkind ▸ hend) (hkind ▸ hitem),
        hkind, ← unplaced_bump, ← ih]

theorem unplaced_recoverField (s : State) : s.recoverField.unplaced = s.unplaced.recoverField :=
  unplaced_skipField s.rest s

theorem unplaced_recoverItem (s : State) : s.recoverItem.unplaced = s.unplaced.recoverItem :=
  unplaced_skipItem s.rest 0 s

end State

/-! ## Readers -/

def Reply.unplaced {α β : Type} (f : α → β) : Reply α → Reply β
  | .ok a s => .ok (f a) s.unplaced
  | .error e s => .error e.unplaced s.unplaced

namespace Reader

variable {α β α' β' : Type}

/-- Without places `r'` gives what `r` gives, up to `f`. -/
def Blind (f : α → β) (r : Reader α) (r' : Reader β) : Prop :=
  ∀ s, r' s.unplaced = (r s).unplaced f

theorem blind_pure {f : α → β} {a : α} {b : β} (h : b = f a) : Blind f (pure a) (pure b) := by
  subst h
  exact fun _ => rfl

theorem Blind.bind {f : α → β} {g : α' → β'} {r : Reader α} {r' : Reader β} {k : α → Reader α'}
    {k' : β → Reader β'} (hr : Blind f r r') (hk : ∀ a, Blind g (k a) (k' (f a))) :
    Blind g (r >>= k) (r' >>= k') := by
  intro s
  show Reader.bind r' k' s.unplaced = (Reader.bind r k s).unplaced g
  unfold Reader.bind
  rw [hr s]
  cases r s with
  | ok a t => exact hk a t
  | error e t => rfl

theorem blind_current : Blind Token.unplaced current current := fun _ => rfl

theorem blind_next : Blind Token.unplaced next next := by
  intro s
  simp only [next, Reply.unplaced, State.unplaced_bump]
  rfl

theorem blind_ofExcept {f : α → β} {x : Except ParseError α} {y : Except ParseError β}
    (h : y = (x.map f).mapError ParseError.unplaced) : Blind f (ofExcept x) (ofExcept y) := by
  subst h
  cases x with
  | ok a => exact fun _ => rfl
  | error e => exact fun _ => rfl

/-- A token of one kind, with whatever is made of it, or an error. -/
theorem blind_kind (k : Token.Kind) {f : α → β} (g : Token → α) (g' : Token → β)
    (c : Token → ParseError) (hg : ∀ t, g' t.unplaced = f (g t))
    (hc : ∀ t, c t.unplaced = (c t).unplaced) :
    Blind f (fun s => if s.current.kind = k then .ok (g s.current) s.bump
        else .error (c s.current) s)
      (fun s => if s.current.kind = k then .ok (g' s.current) s.bump
        else .error (c s.current) s) := by
  intro s
  show (if s.current.kind = k then Reply.ok (g' s.current.unplaced) s.unplaced.bump
    else .error (c s.current.unplaced) s.unplaced) = _
  dsimp only
  split
  · rw [hg, ← State.unplaced_bump]
    rfl
  · rw [hc]
    rfl

theorem blind_expect (k : Token.Kind) : Blind Token.unplaced (expect k) (expect k) :=
  blind_kind k id id (fun t => ⟨.expectedToken k t, t.span⟩) (fun _ => rfl) fun _ => rfl

theorem blind_ident : Blind Ident.unplaced ident ident :=
  blind_kind .identifier identOf identOf (fun t => ⟨.expectedIdentifier t, t.span⟩)
    (fun _ => rfl) fun _ => rfl

theorem blind_skip (k : Token.Kind) : Blind id (skip k) (skip k) := by
  intro s
  show (if s.current.kind = k then Reply.ok true s.unplaced.bump else .ok false s.unplaced) = _
  unfold skip
  split
  · rw [← State.unplaced_bump]
    rfl
  · rfl

theorem blind_path : Blind Path.unplaced path path := by
  refine blind_ident.bind fun first => (blind_skip .dot).bind fun dotted => ?_
  cases dotted with
  | true => exact blind_ident.bind fun name => blind_pure rfl
  | false => exact blind_pure rfl

/-! ## Expressions -/

theorem blind_leaf (v : Value) : Blind Operand.unplaced (leaf v) (leaf v) :=
  blind_next.bind fun _ => blind_pure rfl

theorem blind_atom : Blind Operand.unplaced atom atom := by
  refine blind_current.bind fun t => ?_
  have hother : Blind Operand.unplaced (refuse .expectedExpression)
      (refuse .expectedExpression) := fun _ => rfl
  have hpath : Blind Operand.unplaced (do let p ← path; return ⟨.path p, 1⟩)
      (do let p ← path; return ⟨.path p, 1⟩) := blind_path.bind fun _ => blind_pure rfl
  obtain ⟨kind, lexeme, span⟩ := t
  cases kind with
  | intLiteral => exact blind_leaf _
  | floatLiteral => exact blind_leaf _
  | keyTrue => exact blind_leaf _
  | keyFalse => exact blind_leaf _
  | stringLiteral =>
    refine blind_next.bind fun t => ?_
    obtain ⟨kind, lexeme, span⟩ := t
    dsimp only [Token.unplaced]
    cases unescape (unquoted lexeme) with
    | ok cs => exact blind_pure rfl
    | error c => exact fun _ => rfl
  | identifier => exact hpath
  | _ => exact hother

theorem Blind.nested {f : α → β} {r : Reader α} {r' : Reader β} (h : Blind f r r')
    (opening : Span) : Blind f (nested opening r) (nested nowhere r') := by
  intro s
  have hinside := h { s with nesting := s.nesting + 1 }
  show (if maxLevels ≤ s.nesting then Reply.error (Operand.tooHigh nowhere) s.unplaced else _) = _
  unfold Reader.nested
  split
  · rfl
  · rw [show { s.unplaced with nesting := s.unplaced.nesting + 1 } =
      ({ s with nesting := s.nesting + 1 } : State).unplaced from rfl, hinside]
    cases r { s with nesting := s.nesting + 1 } with
    | ok a t => rfl
    | error e t => rfl

theorem blind_binary (op : Operator) (l r : Operand) :
    Blind Operand.unplaced (ofExcept (l.binary op r))
      (ofExcept (l.unplaced.binary op r.unplaced)) := by
  refine blind_ofExcept ?_
  have hheight (o : Operand) : o.unplaced.height = o.height := rfl
  have hspan (o : Operand) : o.unplaced.expr.span = nowhere := o.expr.span_unplaced
  simp only [Operand.binary, hheight, hspan, merge_nowhere]
  split
  · rfl
  · rfl

theorem blind_negate (minus : Span) (o : Operand) :
    Blind Operand.unplaced (ofExcept (o.negate minus)) (ofExcept (o.unplaced.negate nowhere)) := by
  refine blind_ofExcept ?_
  have hheight : o.unplaced.height = o.height := rfl
  have hspan : o.unplaced.expr.span = nowhere := o.expr.span_unplaced
  simp only [Operand.negate, hheight, hspan, merge_nowhere]
  split
  · rfl
  · rfl

section

variable (operator? : Token.Kind → Option Operator) {operand : Reader Operand}
  (hoperand : Blind Operand.unplaced operand operand)

include hoperand in
/-- By induction on the bound, of which only the length counts. -/
theorem blind_chain (bound : List Piece) (l : Operand) :
    Blind Operand.unplaced (chain operator? operand bound l)
      (chain operator? operand (bound.map Piece.unplaced) l.unplaced) := by
  induction bound generalizing l with
  | nil => exact blind_pure rfl
  | cons p bound ih =>
    refine blind_current.bind fun t => ?_
    dsimp only [Token.unplaced]
    cases operator? t.kind with
    | none => exact blind_pure rfl
    | some op =>
      exact blind_next.bind fun _ => hoperand.bind fun r => (blind_binary op l r).bind ih

include hoperand in
theorem blind_joined :
    Blind Operand.unplaced (joined operator? operand) (joined operator? operand) :=
  hoperand.bind fun l s => blind_chain operator? hoperand s.rest l s

end

theorem blind_sum {operand : Reader Operand} (h : Blind Operand.unplaced operand operand) :
    Blind Operand.unplaced (sum operand) (sum operand) :=
  blind_joined additive? (blind_joined multiplicative? h)

theorem blind_unary (bound : Nat) : Blind Operand.unplaced (unary bound) (unary bound) := by
  induction bound with
  | zero => exact blind_current.bind fun t => blind_ofExcept rfl
  | succ bound ih =>
    refine blind_current.bind fun t => ?_
    obtain ⟨kind, lexeme, span⟩ := t
    cases kind with
    | minus =>
      exact blind_next.bind fun minus => (ih.nested _).bind fun o => blind_negate _ o
    | leftParen =>
      exact blind_next.bind fun paren => ((blind_sum ih).nested _).bind fun o =>
        (blind_expect .rightParen).bind fun _ => blind_pure rfl
    | _ => exact blind_atom

theorem blind_expression : Blind Operand.unplaced expression expression :=
  blind_sum (blind_unary (maxLevels + 1))

/-! ## Fields -/

theorem blind_fieldAfter (name : Ident) :
    Blind FieldDecl.unplaced (fieldAfter name) (fieldAfter name.unplaced) :=
  (blind_expect .colon).bind fun _ => blind_path.bind fun type =>
    (blind_expect .semicolon).bind fun _ =>
      blind_pure (congrArg (FieldDecl.mk name.unplaced type.unplaced) merge_nowhere)

theorem blind_field : Blind FieldDecl.unplaced field field := blind_ident.bind blind_fieldAfter

/-- What a reader of a list gives, without places. -/
def listUnplaced (f : α → α) (read : List α × State) : List α × State :=
  (read.1.map f, read.2.unplaced)

theorem unplaced_fieldsUpTo (bound : List Piece) (s : State) :
    fieldsUpTo (bound.map Piece.unplaced) s.unplaced =
      listUnplaced FieldDecl.unplaced (fieldsUpTo bound s) := by
  induction bound generalizing s with
  | nil => rfl
  | cons p bound ih =>
    rw [List.map_cons, fieldsUpTo, fieldsUpTo, blind_field s]
    show (if s.current.kind = .rightBrace ∨ s.current.kind = .eof then _ else _) = _
    split
    · rfl
    · cases field s with
      | ok f t =>
        dsimp only [Reply.unplaced]
        rw [ih]
        rfl
      | error e t =>
        dsimp only [Reply.unplaced]
        rw [← State.unplaced_report, ← State.unplaced_recoverField, ih]

theorem blind_fields : Blind (List.map FieldDecl.unplaced) fields fields := by
  intro s
  unfold fields
  dsimp only
  rw [show s.unplaced.rest = s.rest.map Piece.unplaced from rfl, unplaced_fieldsUpTo]
  rfl

/-! ## Types -/

theorem unplaced_passModifier (seen ms : Modifiers) (s : State) :
    (passModifier seen ms s).unplaced = passModifier seen ms s.unplaced := by
  unfold passModifier
  split
  · rw [State.unplaced_report, State.unplaced_bump]
    rfl
  · exact s.unplaced_bump

theorem unplaced_modifiersUpTo (bound : List Piece) (seen : Modifiers) (s : State) :
    modifiersUpTo (bound.map Piece.unplaced) seen s.unplaced =
      ((modifiersUpTo bound seen s).1, (modifiersUpTo bound seen s).2.unplaced) := by
  induction bound generalizing seen s with
  | nil => rfl
  | cons p bound ih =>
    have hkind : s.unplaced.current.kind = s.current.kind := rfl
    cases hmodifier : modifier? s.current.kind with
    | none => rw [modifiersUpTo_stop hmodifier, modifiersUpTo_stop (hkind ▸ hmodifier)]
    | some ms =>
      rw [List.map_cons, modifiersUpTo_step hmodifier, modifiersUpTo_step (hkind ▸ hmodifier),
        ← unplaced_passModifier, ih]

theorem blind_modifiers : Blind id modifiers modifiers := by
  intro s
  unfold modifiers
  dsimp only
  rw [show s.unplaced.rest = s.rest.map Piece.unplaced from rfl, unplaced_modifiersUpTo]
  rfl

theorem blind_bodyAfter (first : Token) (ms : Modifiers) (name : Ident) (base : Option Path) :
    Blind TypeDecl.unplaced (bodyAfter first ms name base)
      (bodyAfter first.unplaced ms name.unplaced (base.map Path.unplaced)) :=
  (blind_expect .leftBrace).bind fun _ => blind_fields.bind fun fs =>
    (blind_expect .rightBrace).bind fun _ =>
      blind_pure (congrArg (TypeDecl.mk ms name.unplaced (base.map Path.unplaced)
        (fs.map FieldDecl.unplaced)) merge_nowhere)

theorem blind_typeAfter (first : Token) (ms : Modifiers) :
    Blind TypeDecl.unplaced (typeAfter first ms) (typeAfter first.unplaced ms) := by
  refine blind_ident.bind fun name => (blind_skip .keyExtends).bind fun based => ?_
  cases based with
  | true =>
    have hbase : Blind (Option.map Path.unplaced) (some <$> path) (some <$> path) :=
      blind_path.bind fun _ => blind_pure rfl
    exact hbase.bind fun base => blind_bodyAfter first ms name base
  | false =>
    have hbase : Blind (Option.map Path.unplaced) (pure none) (pure none) := blind_pure rfl
    exact hbase.bind fun base => blind_bodyAfter first ms name base

theorem blind_typeDecl : Blind TypeDecl.unplaced typeDecl typeDecl :=
  blind_current.bind fun first => blind_modifiers.bind fun ms =>
    (blind_expect .keyType).bind fun _ => blind_typeAfter first ms

/-! ## Declarations -/

theorem blind_constDecl : Blind ConstDecl.unplaced constDecl constDecl :=
  blind_next.bind fun _ => blind_ident.bind fun name => (blind_expect .equal).bind fun _ =>
    blind_expression.bind fun value => (blind_expect .semicolon).bind fun _ =>
      blind_pure (congrArg (ConstDecl.mk name.unplaced value.expr.unplaced) merge_nowhere)

theorem blind_item : Blind Item.unplaced item item := by
  intro s
  have htype : Blind Item.unplaced (Item.type <$> typeDecl) (Item.type <$> typeDecl) :=
    blind_typeDecl.bind fun _ => blind_pure rfl
  have hconst : Blind Item.unplaced (Item.const <$> constDecl) (Item.const <$> constDecl) :=
    blind_constDecl.bind fun _ => blind_pure rfl
  have hother : Blind Item.unplaced (itemFrom .eof) (itemFrom .eof) :=
    blind_next.bind fun found => blind_ofExcept rfl
  rw [item_eq, item_eq, show s.unplaced.current.kind = s.current.kind from rfl]
  cases s.current.kind with
  | keyConst => exact hconst s
  | keyType => exact htype s
  | keySealed => exact htype s
  | keyAbstract => exact htype s
  | _ => exact hother s

theorem unplaced_itemsUpTo (bound : List Piece) (s : State) :
    itemsUpTo (bound.map Piece.unplaced) s.unplaced =
      listUnplaced Item.unplaced (itemsUpTo bound s) := by
  induction bound generalizing s with
  | nil => rfl
  | cons p bound ih =>
    rw [List.map_cons, itemsUpTo, itemsUpTo, blind_item s]
    show (if s.current.kind = .eof then _ else _) = _
    split
    · rfl
    · cases item s with
      | ok i t =>
        dsimp only [Reply.unplaced]
        rw [ih]
        rfl
      | error e t =>
        dsimp only [Reply.unplaced]
        rw [← State.unplaced_report, ← State.unplaced_recoverItem, ih]

end Reader

/-! ## Sources -/

/-- What is read from a stream, without places. -/
theorem ofPieces_unplaced (pieces : List Piece) :
    ((ofPieces pieces).1.items.map Item.unplaced, (ofPieces pieces).2.map ParseError.unplaced) =
      let s := State.seek (State.unplaced ⟨.endAt 1 1, [], 0, #[]⟩) (pieces.map Piece.unplaced)
      ((Reader.itemsUpTo s.rest s).1, (Reader.itemsUpTo s.rest s).2.errors.toList) := by
  dsimp only
  rw [← State.unplaced_seek]
  have hread := Reader.unplaced_itemsUpTo (State.ofPieces pieces).rest (State.ofPieces pieces)
  exact (congrArg (fun read : List Item × State => (read.1, read.2.errors.toList)) hread).symm

/-- Streams that only differ in places are read as the same declarations, with the same errors. -/
theorem ofPieces_blind {pieces pieces' : List Piece}
    (h : pieces.map Piece.unplaced = pieces'.map Piece.unplaced) :
    (ofPieces pieces).1.items.map Item.unplaced = (ofPieces pieces').1.items.map Item.unplaced ∧
      (ofPieces pieces).2.map ParseError.unplaced =
        (ofPieces pieces').2.map ParseError.unplaced := by
  have hsame := (ofPieces_unplaced pieces).trans
    (h ▸ (ofPieces_unplaced pieces').symm)
  exact Prod.mk.inj hsame

end Script

theorem Token.unplaced_eq_of_alike {t u : Token} (h : t.Alike u) : t.unplaced = u.unplaced := by
  rw [unplaced, unplaced, h.kind, h.lexeme]

theorem Token.map_unplaced_of_alike {ts us : List Token} (h : List.Forall₂ Token.Alike ts us) :
    (ts.map Piece.token).map Piece.unplaced = (us.map Piece.token).map Piece.unplaced := by
  induction h with
  | nil => rfl
  | cons htu _ ih =>
    simp only [List.map_cons, Piece.unplaced, Token.unplaced_eq_of_alike htu, ih]

namespace Script

/-- What errors say, each with its category. -/
def said (errors : List ParseError) : List (ParseError.Category × String) :=
  errors.map fun e => (e.category, e.message)

theorem said_unplaced (errors : List ParseError) :
    said (errors.map ParseError.unplaced) = said errors := by
  simp only [said, List.map_map, Function.comp_def, ParseError.says_unplaced]

/--
The tokens of a source without lexical errors, written with single spaces between them, are read as
the same tokens, whether or not the end of the source is counted as one of them; and the two texts
have the same declarations up to spans and the same errors, of the same categories and with the same
messages.
-/
theorem parse_spaced {source text : String} {ts : List Token} {line col : UInt32}
    (h : Token.ofSource source = (ts ++ [Token.endAt line col]).map .token)
    (htext : text = Token.spaced ts ∨ text = Token.spaced (ts ++ [Token.endAt line col])) :
    (∃ us line' col', Token.ofSource text = (us ++ [Token.endAt line' col']).map .token ∧
      List.Forall₂ Token.Alike ts us) ∧
    (parse text).1.items.map Item.unplaced = (parse source).1.items.map Item.unplaced ∧
    said (parse text).2 = said (parse source).2 := by
  obtain ⟨us, line', col', hus, halike⟩ := Token.ofSource_spaced h htext
  refine ⟨⟨us, line', col', hus, halike⟩, ?_⟩
  have hall : List.Forall₂ Token.Alike (ts ++ [Token.endAt line col])
      (us ++ [Token.endAt line' col']) :=
    List.rel_append halike (.cons ⟨rfl, rfl⟩ .nil)
  obtain ⟨hitems, herrors⟩ := ofPieces_blind (Token.map_unplaced_of_alike hall)
  rw [parse, parse, h, hus, hitems, ← said_unplaced, ← herrors, said_unplaced]
  exact ⟨rfl, rfl⟩

/-! ### A broken type and a constant with next to no white space -/

def crowded : String :=
  "type A/**/extends B.C\x7by:\x7d//\nconst N=-1.5e+3/\"a b\";"

def crowdedTokens : List Token :=
  [⟨.keyType, "type", ⟨1, 1, 4⟩⟩, ⟨.identifier, "A", ⟨1, 6, 1⟩⟩,
    ⟨.keyExtends, "extends", ⟨1, 11, 7⟩⟩, ⟨.identifier, "B", ⟨1, 19, 1⟩⟩,
    ⟨.dot, ".", ⟨1, 20, 1⟩⟩, ⟨.identifier, "C", ⟨1, 21, 1⟩⟩, ⟨.leftBrace, "\x7b", ⟨1, 22, 1⟩⟩,
    ⟨.identifier, "y", ⟨1, 23, 1⟩⟩, ⟨.colon, ":", ⟨1, 24, 1⟩⟩, ⟨.rightBrace, "\x7d", ⟨1, 25, 1⟩⟩,
    ⟨.keyConst, "const", ⟨2, 1, 5⟩⟩, ⟨.identifier, "N", ⟨2, 7, 1⟩⟩, ⟨.equal, "=", ⟨2, 8, 1⟩⟩,
    ⟨.minus, "-", ⟨2, 9, 1⟩⟩, ⟨.floatLiteral, "1.5e+3", ⟨2, 10, 6⟩⟩, ⟨.slash, "/", ⟨2, 16, 1⟩⟩,
    ⟨.stringLiteral, "\"a b\"", ⟨2, 17, 5⟩⟩, ⟨.semicolon, ";", ⟨2, 22, 1⟩⟩]

theorem parse_spaced_crowded :
    Token.ofSource crowded = (crowdedTokens ++ [Token.endAt 2 23]).map .token ∧
    Token.spaced crowdedTokens =
      "type A extends B . C \x7b y : \x7d const N = - 1.5e+3 / \"a b\" ;" ∧
    (parse (Token.spaced crowdedTokens)).1.items.map Item.unplaced =
      (parse crowded).1.items.map Item.unplaced ∧
    said (parse (Token.spaced crowdedTokens)).2 =
      [(.expectedIdentifier, "expected identifier, found '\x7d'")] := by
  have h : Token.ofSource crowded = (crowdedTokens ++ [Token.endAt 2 23]).map .token := by
    decide +kernel
  have hsaid : said (parse crowded).2 =
      [(.expectedIdentifier, "expected identifier, found '\x7d'")] := by decide +kernel
  obtain ⟨-, hitems, herrors⟩ := parse_spaced h (.inl rfl)
  exact ⟨h, by decide +kernel, hitems, herrors.trans hsaid⟩

end Script
end Linkage
