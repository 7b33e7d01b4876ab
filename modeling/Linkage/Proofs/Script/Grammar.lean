import Linkage.Script.Parse

/-!
# Linkage.Proofs.Script.Grammar

The grammar of the declaration language, as relations between tokens and what they stand for. It
is said without readers: no state, no look-ahead, no recovery.

```
script     := item*
item       := type_decl | const_decl
type_decl  := modifier* 'type' IDENT ('extends' path)? '{' field* '}'
modifier   := 'sealed' | 'abstract'
field      := IDENT ':' path ';'
const_decl := 'const' IDENT '=' expr ';'
path       := IDENT ('.' IDENT)?
expr       := term (('+' | '-') term)*
term       := unary (('*' | '/' | '%') unary)*
unary      := '-' unary | primary
primary    := INT | FLOAT | STRING | 'true' | 'false' | path | '(' expr ')'
```

Each nonterminal is a relation, each production one constructor of it. The limits stand with the
productions that they limit: a modifier is not repeated on a type, and the expression of a constant
is neither deeper nor higher than `maxLevels`.
-/

namespace Linkage
namespace Script

/-- `a*`: any number of the nonterminal, one after the other. -/
inductive Many {α : Type} (P : List Token → α → Prop) : List Token → List α → Prop where
  | nil : Many P [] []
  | cons {ts us : List Token} {a : α} {as : List α} :
      P ts a → Many P us as → Many P (ts ++ us) (a :: as)

/-! ## Literals -/

/-- What a backslash and a character stand for together. -/
def escapes : List (Char × Char) :=
  [('n', '\n'), ('t', '\t'), ('r', '\r'), ('0', '\x00'), ('\\', '\\'), ('"', '"')]

/-- The text between the quotes of a string literal and the text that it stands for. -/
inductive QuotedOf : List Char → List Char → Prop where
  | nil : QuotedOf [] []
  | plain {c : Char} {cs ds : List Char} : c ≠ '\\' → QuotedOf cs ds → QuotedOf (c :: cs) (c :: ds)
  | escaped {c d : Char} {cs ds : List Char} : (c, d) ∈ escapes → QuotedOf cs ds →
      QuotedOf ('\\' :: c :: cs) (d :: ds)

inductive LiteralOf : Token → Value → Prop where
  | int {t : Token} : t.kind = .intLiteral →
      LiteralOf t (.int (.ofNat (Decimal.toNat t.lexeme.toList)))
  | float {t : Token} : t.kind = .floatLiteral →
      LiteralOf t (.float (Decimal.readBinary64 t.lexeme.toList))
  | string {t : Token} {ds : List Char} : t.kind = .stringLiteral →
      QuotedOf (unquoted t.lexeme) ds → LiteralOf t (.string (String.ofList ds))
  | true {t : Token} : t.kind = .keyTrue → LiteralOf t (.bool true)
  | false {t : Token} : t.kind = .keyFalse → LiteralOf t (.bool false)

/-! ## Names -/

def identOf (t : Token) : Ident := ⟨t.lexeme, t.span⟩

@[simp] theorem span_identOf (t : Token) : (identOf t).span = t.span := rfl

inductive PathOf : List Token → Path → Prop where
  | bare {x : Token} : x.kind = .identifier → PathOf [x] ⟨none, identOf x⟩
  | qualified {m dot x : Token} : m.kind = .identifier → dot.kind = .dot → x.kind = .identifier →
      PathOf [m, dot, x] ⟨some (identOf m), identOf x⟩

/-! ## Expressions -/

/-- The nonterminals of expressions, the loosest first. -/
inductive Level where
  | expr
  | term
  | unary
  | primary

def looseOperators : List (Token.Kind × Operator) := [(.plus, .add), (.minus, .sub)]

def tightOperators : List (Token.Kind × Operator) :=
  [(.star, .mul), (.slash, .div), (.percent, .rem)]

/--
The tokens of an expression and its tree. The number is its depth: how many parentheses and unary
minuses are open together where most of them are. The repetitions in `expr` and `term` are built
up from the left.
-/
inductive ExprOf : Level → Nat → List Token → Expr → Prop where
  | literal {t : Token} {v : Value} : LiteralOf t v → ExprOf .primary 0 [t] (.literal v t.span)
  | path {ts : List Token} {p : Path} : PathOf ts p → ExprOf .primary 0 ts (.path p)
  | parens {opening closing : Token} {d : Nat} {ts : List Token} {e : Expr} :
      opening.kind = .leftParen → ExprOf .expr d ts e → closing.kind = .rightParen →
      ExprOf .primary (d + 1) (opening :: (ts ++ [closing])) e
  | primary {d : Nat} {ts : List Token} {e : Expr} : ExprOf .primary d ts e → ExprOf .unary d ts e
  | minus {minus : Token} {d : Nat} {ts : List Token} {e : Expr} :
      minus.kind = .minus → ExprOf .unary d ts e →
      ExprOf .unary (d + 1) (minus :: ts) (.negate e (minus.span.merge e.span))
  | unary {d : Nat} {ts : List Token} {e : Expr} : ExprOf .unary d ts e → ExprOf .term d ts e
  | times {d j : Nat} {ts us : List Token} {o : Token} {op : Operator} {l r : Expr} :
      ExprOf .term d ts l → (o.kind, op) ∈ tightOperators → ExprOf .unary j us r →
      ExprOf .term (max d j) (ts ++ o :: us) (.binary op l r (l.span.merge r.span))
  | term {d : Nat} {ts : List Token} {e : Expr} : ExprOf .term d ts e → ExprOf .expr d ts e
  | plus {d j : Nat} {ts us : List Token} {o : Token} {op : Operator} {l r : Expr} :
      ExprOf .expr d ts l → (o.kind, op) ∈ looseOperators → ExprOf .term j us r →
      ExprOf .expr (max d j) (ts ++ o :: us) (.binary op l r (l.span.merge r.span))

/-! ## Declarations -/

inductive ModifierOf : List Token → Modifiers → Prop where
  | sealed {t : Token} : t.kind = .keySealed → ModifierOf [t] .sealed
  | abstract {t : Token} : t.kind = .keyAbstract → ModifierOf [t] .abstract

def unionOf (ms : List Modifiers) : Modifiers := ms.foldl .union .empty

/-- `('extends' path)?` -/
inductive BaseOf : List Token → Option Path → Prop where
  | none : BaseOf [] none
  | extends {key : Token} {ts : List Token} {p : Path} : key.kind = .keyExtends → PathOf ts p →
      BaseOf (key :: ts) (some p)

inductive FieldOf : List Token → FieldDecl → Prop where
  | field {x colon semicolon : Token} {ts : List Token} {p : Path} : x.kind = .identifier →
      colon.kind = .colon → PathOf ts p → semicolon.kind = .semicolon →
      FieldOf (x :: colon :: (ts ++ [semicolon])) ⟨identOf x, p, x.span.merge semicolon.span⟩

inductive TypeOf : List Token → TypeDecl → Prop where
  | type {first key x opening closing : Token} {ms bs fs : List Token}
      {modifiers : List Modifiers} {base : Option Path} {fields : List FieldDecl} :
      Many ModifierOf ms modifiers → modifiers.Nodup → (ms ++ [key]).head? = some first →
      key.kind = .keyType → x.kind = .identifier → BaseOf bs base → opening.kind = .leftBrace →
      Many FieldOf fs fields → closing.kind = .rightBrace →
      TypeOf (ms ++ key :: x :: (bs ++ opening :: (fs ++ [closing])))
        ⟨unionOf modifiers, identOf x, base, fields, first.span.merge closing.span⟩

inductive ConstOf : List Token → ConstDecl → Prop where
  | const {key x equal semicolon : Token} {d : Nat} {ts : List Token} {e : Expr} :
      key.kind = .keyConst → x.kind = .identifier → equal.kind = .equal → ExprOf .expr d ts e →
      d ≤ maxLevels → e.height ≤ maxLevels → semicolon.kind = .semicolon →
      ConstOf (key :: x :: equal :: (ts ++ [semicolon]))
        ⟨identOf x, e, key.span.merge semicolon.span⟩

inductive ItemOf : List Token → Item → Prop where
  | type {ts : List Token} {t : TypeDecl} : TypeOf ts t → ItemOf ts (.type t)
  | const {ts : List Token} {c : ConstDecl} : ConstOf ts c → ItemOf ts (.const c)

def ScriptOf : List Token → List Item → Prop := Many ItemOf

theorem LiteralOf.kind_ne {t : Token} {v : Value} (h : LiteralOf t v) :
    t.kind ≠ .minus ∧ t.kind ≠ .leftParen := by
  cases h with
  | int hkind => simp [hkind]
  | float hkind => simp [hkind]
  | string hkind _ => simp [hkind]
  | true hkind => simp [hkind]
  | false hkind => simp [hkind]

theorem FieldOf.head {ts : List Token} {f : FieldDecl} (h : FieldOf ts f) :
    ∃ x us, ts = x :: us ∧ x.kind = .identifier := by
  cases h with
  | field hx => exact ⟨_, _, rfl, hx⟩

theorem TypeOf.head {ts : List Token} {t : TypeDecl} (h : TypeOf ts t) :
    ∃ first us, ts = first :: us ∧
      (first.kind = .keyType ∨ first.kind = .keySealed ∨ first.kind = .keyAbstract) := by
  cases h with
  | type hms _ _ hkey =>
    cases hms with
    | nil => exact ⟨_, _, rfl, .inl hkey⟩
    | cons hm _ =>
      cases hm with
      | sealed hkind => exact ⟨_, _, rfl, .inr (.inl hkind)⟩
      | abstract hkind => exact ⟨_, _, rfl, .inr (.inr hkind)⟩

theorem ItemOf.head {ts : List Token} {i : Item} (h : ItemOf ts i) :
    ∃ first us, ts = first :: us ∧ first.kind ≠ .eof := by
  cases h with
  | type h =>
    obtain ⟨first, us, rfl, hkind⟩ := h.head
    refine ⟨first, us, rfl, ?_⟩
    rcases hkind with hkind | hkind | hkind
    all_goals simp [hkind]
  | const h =>
    cases h with
    | const hkey => exact ⟨_, _, rfl, by simp [hkey]⟩

theorem ItemOf.ne_nil {ts : List Token} {i : Item} (h : ItemOf ts i) : ts ≠ [] := by
  obtain ⟨first, us, rfl, -⟩ := h.head
  exact List.cons_ne_nil _ _

/-- The tokens of a declaration are among those of its script. -/
theorem itemOf_of_mem {ts : List Token} {items : List Item} (h : ScriptOf ts items) :
    ∀ i ∈ items, ∃ us, ItemOf us i ∧ ∀ x ∈ us, x ∈ ts := by
  induction h with
  | nil => exact fun _ hi => nomatch hi
  | @cons ts us i items hi _ ih =>
    refine List.forall_mem_cons.2 ⟨⟨ts, hi, fun x => List.mem_append_left us⟩, fun j hj => ?_⟩
    obtain ⟨vs, hvs, hmem⟩ := ih j hj
    exact ⟨vs, hvs, fun x hx => List.mem_append_right ts (hmem x hx)⟩

/-! ## Tables of the readers -/

theorem escape?_eq_some {c d : Char} : escape? c = some d ↔ (c, d) ∈ escapes := by
  constructor
  · intro h
    unfold escape? at h
    split at h <;> cases h <;> decide
  · intro h
    simp only [escapes, List.mem_cons, Prod.mk.injEq, List.not_mem_nil, or_false] at h
    rcases h with ⟨rfl, rfl⟩ | ⟨rfl, rfl⟩ | ⟨rfl, rfl⟩ | ⟨rfl, rfl⟩ | ⟨rfl, rfl⟩ | ⟨rfl, rfl⟩ <;>
      rfl

theorem quotedOf_of_unescape {cs : List Char} :
    ∀ {ds : List Char}, unescape cs = .ok ds → QuotedOf cs ds := by
  fun_induction unescape cs with
  | case1 =>
    rintro ds ⟨⟩
    exact .nil
  | case2 => exact nofun
  | case3 => exact nofun
  | case4 => exact nofun
  | case5 c cs d hd ds hds ih =>
    rintro ds' ⟨⟩
    exact .escaped (escape?_eq_some.1 hd) (ih hds)
  | case6 => exact nofun
  | case7 c cs hlast hescape ds hds ih =>
    rintro ds' ⟨⟩
    refine .plain ?_ (ih hds)
    rintro rfl
    cases cs with
    | nil => exact hlast rfl rfl
    | cons c cs => exact hescape c cs rfl rfl

theorem QuotedOf.unescape {cs ds : List Char} (h : QuotedOf cs ds) : unescape cs = .ok ds := by
  induction h with
  | nil => rfl
  | @plain c cs ds hc _ ih =>
    unfold Script.unescape
    split
    · rename_i heq
      cases heq
    · rename_i heq
      exact absurd (List.cons.inj heq).1 hc
    · rename_i heq
      exact absurd (List.cons.inj heq).1 hc
    · rename_i heq
      obtain ⟨rfl, rfl⟩ := List.cons.inj heq
      simp only [ih]
  | escaped hd _ ih => simp only [Script.unescape, escape?_eq_some.2 hd, ih]

theorem additive?_eq_some {kind : Token.Kind} {op : Operator} :
    Reader.additive? kind = some op ↔ (kind, op) ∈ looseOperators := by
  cases kind <;> cases op <;> decide

theorem multiplicative?_eq_some {kind : Token.Kind} {op : Operator} :
    Reader.multiplicative? kind = some op ↔ (kind, op) ∈ tightOperators := by
  cases kind <;> cases op <;> decide

theorem modifier?_eq_some {t : Token} {m : Modifiers} :
    Reader.modifier? t.kind = some m ↔ ModifierOf [t] m := by
  constructor
  · intro h
    unfold Reader.modifier? at h
    split at h
    · cases h
      exact .sealed ‹_›
    · cases h
      exact .abstract ‹_›
    · cases h
  · intro h
    cases h with
    | sealed h => rw [h, Reader.modifier?]
    | abstract h => rw [h, Reader.modifier?]

theorem ModifierOf.token {ts : List Token} {m : Modifiers} (h : ModifierOf ts m) :
    ∃ t, ts = [t] ∧ Reader.modifier? t.kind = some m := by
  cases h with
  | sealed hkind => exact ⟨_, rfl, modifier?_eq_some.2 (.sealed hkind)⟩
  | abstract hkind => exact ⟨_, rfl, modifier?_eq_some.2 (.abstract hkind)⟩

theorem ModifierOf.cases {ts : List Token} {m : Modifiers} (h : ModifierOf ts m) :
    m = .sealed ∨ m = .abstract := by
  cases h with
  | sealed => exact .inl rfl
  | abstract => exact .inr rfl

theorem or_and_absorb (a b : UInt8) : (a ||| b) &&& b = b := by
  refine UInt8.toBitVec_inj.1 (BitVec.eq_of_getLsbD_eq fun i _ => ?_)
  rw [UInt8.toBitVec_and, UInt8.toBitVec_or, BitVec.getLsbD_and, BitVec.getLsbD_or]
  cases a.toBitVec.getLsbD i <;> cases b.toBitVec.getLsbD i <;> rfl

theorem or_and_of_disjoint {a b c : UInt8} (h : b &&& c = 0) : (a ||| b) &&& c = a &&& c := by
  have hdistrib : (a ||| b) &&& c = a &&& c ||| b &&& c := by
    refine UInt8.toBitVec_inj.1 (BitVec.eq_of_getLsbD_eq fun i _ => ?_)
    simp only [UInt8.toBitVec_and, UInt8.toBitVec_or, BitVec.getLsbD_and, BitVec.getLsbD_or,
      Bool.and_or_distrib_right]
  rw [hdistrib, h, UInt8.or_zero]

theorem has_union {a : Modifiers} {m x : Modifiers} (hm : m = .sealed ∨ m = .abstract)
    (hx : x = .sealed ∨ x = .abstract) : (a.union x).has m = true ↔ a.has m = true ∨ m = x := by
  simp only [Modifiers.has, Modifiers.union, beq_iff_eq]
  rcases hm with rfl | rfl <;> rcases hx with rfl | rfl
  · exact iff_of_true (or_and_absorb _ _) (.inr rfl)
  · rw [or_and_of_disjoint rfl]
    exact (or_iff_left (by decide)).symm
  · rw [or_and_of_disjoint rfl]
    exact (or_iff_left (by decide)).symm
  · exact iff_of_true (or_and_absorb _ _) (.inr rfl)

/-- A modifier is in a union of modifiers exactly if it is one of them. -/
theorem has_unionOf {ms : List Modifiers} {m : Modifiers} (hm : m = .sealed ∨ m = .abstract)
    (hms : ∀ x ∈ ms, x = .sealed ∨ x = .abstract) : (unionOf ms).has m = true ↔ m ∈ ms := by
  suffices h : ∀ a : Modifiers, (ms.foldl .union a).has m = true ↔ a.has m = true ∨ m ∈ ms by
    rw [unionOf, h]
    have hempty : Modifiers.has .empty m = false := by rcases hm with rfl | rfl <;> rfl
    simp [hempty]
  induction ms with
  | nil => simp
  | cons x ms ih =>
    intro a
    rw [List.foldl_cons, ih fun y hy => hms y (List.mem_cons_of_mem _ hy),
      has_union hm (hms x List.mem_cons_self), List.mem_cons, or_assoc]

theorem unionOf_concat {ms : List Modifiers} {m : Modifiers} :
    unionOf (ms ++ [m]) = (unionOf ms).union m := by
  simp [unionOf]

/-- The modifiers there are stay all there are when one more is added. -/
theorem forall_mem_concat {ms : List Modifiers} {m : Modifiers}
    (hms : ∀ x ∈ ms, x = .sealed ∨ x = .abstract) (hm : m = .sealed ∨ m = .abstract) :
    ∀ x ∈ ms ++ [m], x = .sealed ∨ x = .abstract := by
  intro x hx
  rcases List.mem_append.1 hx with hx | hx
  · exact hms x hx
  · obtain rfl := List.mem_singleton.1 hx
    exact hm

end Script
end Linkage
