import Linkage.Span
import Linkage.Text.Quoted

/-!
# Linkage.Token.Basic

The tokens of the declaration language, and what can be wrong with a piece of source that is no
token.
-/

namespace Linkage

namespace Token

inductive Kind where
  | intLiteral
  | floatLiteral
  | stringLiteral
  | identifier
  | keyType
  | keyExtends
  | keyConst
  | keySealed
  | keyAbstract
  | keyTrue
  | keyFalse
  | leftBrace
  | rightBrace
  | leftParen
  | rightParen
  | colon
  | semicolon
  | dot
  | equal
  | plus
  | minus
  | star
  | slash
  | percent
  | eof
  deriving DecidableEq, Inhabited

namespace Kind

def name : Kind → String
  | .intLiteral => "IntLiteral"
  | .floatLiteral => "FloatLiteral"
  | .stringLiteral => "StringLiteral"
  | .identifier => "Identifier"
  | .keyType => "Type"
  | .keyExtends => "Extends"
  | .keyConst => "Const"
  | .keySealed => "Sealed"
  | .keyAbstract => "Abstract"
  | .keyTrue => "True"
  | .keyFalse => "False"
  | .leftBrace => "LeftBrace"
  | .rightBrace => "RightBrace"
  | .leftParen => "LeftParen"
  | .rightParen => "RightParen"
  | .colon => "Colon"
  | .semicolon => "Semicolon"
  | .dot => "Dot"
  | .equal => "Equal"
  | .plus => "Plus"
  | .minus => "Minus"
  | .star => "Star"
  | .slash => "Slash"
  | .percent => "Percent"
  | .eof => "Eof"

/-- Whether a top-level declaration can begin with this token. -/
def startsItem : Kind → Bool
  | .keyType => true
  | .keyConst => true
  | .keySealed => true
  | .keyAbstract => true
  | _ => false

def ofKeyword? : String → Option Kind
  | "type" => some .keyType
  | "extends" => some .keyExtends
  | "const" => some .keyConst
  | "sealed" => some .keySealed
  | "abstract" => some .keyAbstract
  | "true" => some .keyTrue
  | "false" => some .keyFalse
  | _ => none

def ofPunctuation? : Char → Option Kind
  | '\x7b' => some .leftBrace
  | '\x7d' => some .rightBrace
  | '(' => some .leftParen
  | ')' => some .rightParen
  | ':' => some .colon
  | ';' => some .semicolon
  | '.' => some .dot
  | '=' => some .equal
  | '+' => some .plus
  | '-' => some .minus
  | '*' => some .star
  | '/' => some .slash
  | '%' => some .percent
  | _ => none

end Kind

end Token

structure Token where
  kind : Token.Kind
  /-- The source text of the token. -/
  lexeme : String
  span : Span
  deriving DecidableEq, Inhabited

namespace Token

/-- The token that ends every source, empty and at the position after the last character. -/
def endAt (line col : UInt32) : Token := ⟨.eof, "", .point line col⟩

/-- How the token is named in a message. -/
def describe (t : Token) : String :=
  match t.kind with
  | .eof => "end of file"
  | .identifier => "identifier `" ++ t.lexeme ++ "`"
  | _ => "'" ++ t.lexeme ++ "'"

/-- How the token is shown in a trace: its kind, its text and its position. -/
def trace (t : Token) : String :=
  t.kind.name ++ "(" ++ Text.quoted t.lexeme ++ " @ " ++ t.span.text ++ ")"

end Token

/-! ## Lexical errors -/

namespace LexError

inductive Cause where
  | unexpectedChar (c : Char)
  | unterminatedString
  | unterminatedComment
  | numberSuffix (suffix : String)
  | integerTooLarge
  deriving DecidableEq

end LexError

structure LexError where
  cause : LexError.Cause
  span : Span
  deriving DecidableEq

def LexError.message (e : LexError) : String :=
  match e.cause with
  | .unexpectedChar c => "unexpected character '" ++ c.toString ++ "' at " ++ e.span.text
  | .unterminatedString => "unterminated string at " ++ e.span.text
  | .unterminatedComment => "unterminated comment at " ++ e.span.text
  | .numberSuffix s =>
    "invalid number at " ++ e.span.text ++ ": unexpected suffix `" ++ s ++ "`"
  | .integerTooLarge =>
    "invalid number at " ++ e.span.text ++ ": integer does not fit in 64 bits"

/-- A piece of a source: a token, or a lexical error in place of one. -/
inductive Piece where
  | token (t : Token)
  | error (e : LexError)
  deriving DecidableEq

end Linkage
