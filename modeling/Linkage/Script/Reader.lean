import Linkage.Script.Error

/-!
# Linkage.Script.Reader

Readers of token streams. A reader sees the current token, may move on, and gives a value or an
error together with the state it stopped in. Moving on collects the lexical errors on the way in
the order of the source.
-/

namespace Linkage
namespace Script

structure State where
  current : Token
  /-- What comes after the current token. -/
  rest : List Piece
  /-- How many parentheses and unary minuses are open. -/
  nesting : Nat
  /-- The errors so far in the order they were found. -/
  errors : Array ParseError

namespace State

/-- Moves to the first token of `pieces`; without one the current token stays. -/
def seek (s : State) : List Piece → State
  | [] => { s with rest := [] }
  | .error e :: pieces => { s with errors := s.errors.push (.ofLexError e) }.seek pieces
  | .token t :: pieces => { s with current := t, rest := pieces }

/-- Moves past the current token. -/
def bump (s : State) : State := s.seek s.rest

def report (s : State) (e : ParseError) : State := { s with errors := s.errors.push e }

/-- The first token of a stream is current; an empty stream counts as one that has ended. -/
def ofPieces (pieces : List Piece) : State :=
  seek ⟨.endAt 1 1, [], 0, #[]⟩ pieces

end State

inductive Reply (α : Type) where
  | ok (value : α) (next : State)
  | error (cause : ParseError) (next : State)

def Reader (α : Type) : Type := State → Reply α

namespace Reader

variable {α β : Type}

protected def pure (a : α) : Reader α := fun s => .ok a s

protected def bind (r : Reader α) (f : α → Reader β) : Reader β := fun s =>
  match r s with
  | .error e t => .error e t
  | .ok a t => f a t

instance : Monad Reader where
  pure := Reader.pure
  bind := Reader.bind

def current : Reader Token := fun s => .ok s.current s

/-- Moves past the current token and gives it. -/
def next : Reader Token := fun s => .ok s.current s.bump

/-- Fails at the current token, which stays. -/
def refuse (cause : Token → ParseError.Cause) : Reader α := fun s =>
  .error ⟨cause s.current, s.current.span⟩ s

/-- Moves past a token of this kind if it is the current one. -/
def skip (kind : Token.Kind) : Reader Bool := fun s =>
  if s.current.kind = kind then .ok true s.bump else .ok false s

/-- Moves past a token of this kind, which has to be there. -/
def expect (kind : Token.Kind) : Reader Token := fun s =>
  if s.current.kind = kind then .ok s.current s.bump
  else .error ⟨.expectedToken kind s.current, s.current.span⟩ s

def ident : Reader Ident := fun s =>
  if s.current.kind = .identifier then .ok ⟨s.current.lexeme, s.current.span⟩ s.bump
  else .error ⟨.expectedIdentifier s.current, s.current.span⟩ s

def path : Reader Path := do
  let first ← ident
  if ← skip .dot then
    let name ← ident
    return ⟨some first, name⟩
  else
    return ⟨none, first⟩

end Reader

end Script
end Linkage
