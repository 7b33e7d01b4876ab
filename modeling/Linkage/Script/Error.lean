import Linkage.Script.Basic

/-!
# Linkage.Script.Error

What can be wrong with the text of a source unit. Errors of the tokens in it count as well.
-/

namespace Linkage

namespace ParseError

inductive Cause where
  | lexical (error : LexError)
  | expectedToken (wanted : Token.Kind) (found : Token)
  | expectedDeclaration (found : Token)
  | expectedIdentifier (found : Token)
  | expectedExpression (found : Token)
  | duplicateModifier (found : Token)
  | invalidEscape (escaped : Option Char)
  | tooManyLevels
  deriving DecidableEq

inductive Category where
  | invalidToken
  | expectedToken
  | expectedDeclaration
  | expectedIdentifier
  | expectedExpression
  | unexpectedEof
  | invalidLiteral
  | nestingTooDeep
  deriving DecidableEq

def Category.name : Category → String
  | .invalidToken => "invalid token"
  | .expectedToken => "expected token"
  | .expectedDeclaration => "expected declaration"
  | .expectedIdentifier => "expected identifier"
  | .expectedExpression => "expected expression"
  | .unexpectedEof => "unexpected end of file"
  | .invalidLiteral => "invalid literal"
  | .nestingTooDeep => "expression nested too deeply"

end ParseError

structure ParseError where
  cause : ParseError.Cause
  span : Span
  deriving DecidableEq

namespace ParseError

def ofLexError (e : LexError) : ParseError := ⟨.lexical e, e.span⟩

/-- A missing token at the end of the source is told apart; other expectations are not. -/
def category (e : ParseError) : Category :=
  match e.cause with
  | .lexical l =>
    match l.cause with
    | .numberSuffix _ => .invalidLiteral
    | .integerTooLarge => .invalidLiteral
    | _ => .invalidToken
  | .expectedToken _ found => if found.kind = .eof then .unexpectedEof else .expectedToken
  | .expectedDeclaration _ => .expectedDeclaration
  | .expectedIdentifier _ => .expectedIdentifier
  | .expectedExpression _ => .expectedExpression
  | .duplicateModifier _ => .expectedToken
  | .invalidEscape _ => .invalidLiteral
  | .tooManyLevels => .nestingTooDeep

/-- How a token that is required at some place is named. -/
def wantedText : Token.Kind → String
  | .keyType => "`type`"
  | .leftBrace => "'\x7b'"
  | .rightBrace => "'\x7d'"
  | .rightParen => "')'"
  | .colon => "':'"
  | .semicolon => "';'"
  | .equal => "'='"
  | kind => kind.name

def message (e : ParseError) : String :=
  match e.cause with
  | .lexical l => l.message
  | .expectedToken wanted found =>
    "expected " ++ wantedText wanted ++ ", found " ++ found.describe
  | .expectedDeclaration found =>
    "expected `type` or `const` declaration, found " ++ found.describe
  | .expectedIdentifier found => "expected identifier, found " ++ found.describe
  | .expectedExpression found => "expected expression, found " ++ found.describe
  | .duplicateModifier found => "duplicate modifier `" ++ found.lexeme ++ "`"
  | .invalidEscape escaped =>
    let shown := match escaped with
      | some c => c.toString
      | none => ""
    "invalid escape sequence `\\" ++ shown ++ "`"
  | .tooManyLevels => "expression nests deeper than " ++ toString maxLevels ++ " levels"

def text (e : ParseError) : String :=
  e.category.name ++ " at " ++ e.span.text ++ ": " ++ e.message

end ParseError

end Linkage
