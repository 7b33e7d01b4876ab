import Linkage.Decimal.Reading
import Linkage.Script.Reader

/-!
# Linkage.Script.Expression

Reading constant expressions. `+` and `-` bind looser than `*`, `/` and `%`, both to the left;
unary minus binds tightest.

Two limits hold at `maxLevels`: the parentheses and unary minuses open at one place, which
`nested` counts while it reads what is inside them, and the height of the tree, which every
operand carries with it.
-/

namespace Linkage
namespace Script

/-- An expression with the height of its tree. -/
structure Operand where
  expr : Expr
  height : Nat

namespace Operand

def tooHigh (span : Span) : ParseError := ⟨.tooManyLevels, span⟩

def negate (minus : Span) (operand : Operand) : Except ParseError Operand :=
  let span := minus.merge operand.expr.span
  if maxLevels ≤ operand.height then .error (tooHigh span)
  else .ok ⟨.negate operand.expr span, operand.height + 1⟩

def binary (op : Operator) (lhs rhs : Operand) : Except ParseError Operand :=
  let span := lhs.expr.span.merge rhs.expr.span
  let tallest := max lhs.height rhs.height
  if maxLevels ≤ tallest then .error (tooHigh span)
  else .ok ⟨.binary op lhs.expr rhs.expr span, tallest + 1⟩

end Operand

/-! ## Literals -/

/-- What a backslash and this character stand for. -/
def escape? : Char → Option Char
  | 'n' => some '\n'
  | 't' => some '\t'
  | 'r' => some '\r'
  | '0' => some '\x00'
  | '\\' => some '\\'
  | '"' => some '"'
  | _ => none

/-- The text between the quotes with its escapes resolved, or what follows the bad backslash. -/
def unescape : List Char → Except (Option Char) (List Char)
  | [] => .ok []
  | ['\\'] => .error none
  | '\\' :: c :: cs =>
    match escape? c with
    | none => .error (some c)
    | some d =>
      match unescape cs with
      | .error e => .error e
      | .ok ds => .ok (d :: ds)
  | c :: cs =>
    match unescape cs with
    | .error e => .error e
    | .ok ds => .ok (c :: ds)

/-- The lexeme of a string literal without its two quotes. -/
def unquoted (lexeme : String) : List Char := lexeme.toList.tail.dropLast

namespace Reader

def ofExcept {α : Type} : Except ParseError α → Reader α
  | .ok a => fun s => .ok a s
  | .error e => fun s => .error e s

def leaf (value : Value) : Reader Operand := do
  let t ← next
  return ⟨.literal value t.span, 1⟩

/-- A literal or a path. -/
def atom : Reader Operand := do
  let t ← current
  match t.kind with
  | .intLiteral => leaf (.int (.ofNat (Decimal.toNat t.lexeme.toList)))
  | .floatLiteral => leaf (.float (Decimal.readBinary64 t.lexeme.toList))
  | .keyTrue => leaf (.bool true)
  | .keyFalse => leaf (.bool false)
  | .stringLiteral =>
    let t ← next
    match unescape (unquoted t.lexeme) with
    | .ok cs => return ⟨.literal (.string (String.ofList cs)) t.span, 1⟩
    | .error c => fun s => .error ⟨.invalidEscape c, t.span⟩ s
  | .identifier =>
    let p ← path
    return ⟨.path p, 1⟩
  | _ => refuse .expectedExpression

/-! ## Operators -/

/-- Reads one level further inside, unless that is one level too many. -/
def nested {α : Type} (opening : Span) (inside : Reader α) : Reader α := fun s =>
  if maxLevels ≤ s.nesting then .error (Operand.tooHigh opening) s
  else
    match inside { s with nesting := s.nesting + 1 } with
    | .ok a t => .ok a { t with nesting := t.nesting - 1 }
    | .error e t => .error e { t with nesting := t.nesting - 1 }

/--
Joins further operands to `lhs` while one of these operators follows, at most one for each of the
pieces in `bound`.
-/
def chain (operator? : Token.Kind → Option Operator) (operand : Reader Operand) :
    List Piece → Operand → Reader Operand
  | [], lhs => return lhs
  | _ :: bound, lhs => do
    let t ← current
    match operator? t.kind with
    | none => return lhs
    | some op =>
      let _ ← next
      let rhs ← operand
      let both ← ofExcept (lhs.binary op rhs)
      chain operator? operand bound both

/-- Operands joined by these operators, to the left. No more of them can follow than pieces. -/
def joined (operator? : Token.Kind → Option Operator) (operand : Reader Operand) :
    Reader Operand := do
  let lhs ← operand
  fun s => chain operator? operand s.rest lhs s

def additive? : Token.Kind → Option Operator
  | .plus => some .add
  | .minus => some .sub
  | _ => none

def multiplicative? : Token.Kind → Option Operator
  | .star => some .mul
  | .slash => some .div
  | .percent => some .rem
  | _ => none

/-- An expression over this form of operand. -/
def sum (operand : Reader Operand) : Reader Operand :=
  joined additive? (joined multiplicative? operand)

/--
An operand of a product. Each parenthesis and each unary minus takes one from the bound, and
`nested` refuses before a bound above `maxLevels` is used up.
-/
def unary : Nat → Reader Operand
  | 0 => do
    let t ← current
    ofExcept (.error (Operand.tooHigh t.span))
  | bound + 1 => do
    let t ← current
    match t.kind with
    | .minus =>
      let minus ← next
      let operand ← nested minus.span (unary bound)
      ofExcept (operand.negate minus.span)
    | .leftParen =>
      let paren ← next
      let inside ← nested paren.span (sum (unary bound))
      let _ ← expect .rightParen
      return inside
    | _ => atom

def expression : Reader Operand := sum (unary (maxLevels + 1))

end Reader

end Script
end Linkage
