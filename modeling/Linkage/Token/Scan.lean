import Linkage.Decimal.Reading
import Linkage.Text.Blank
import Linkage.Text.Utf8
import Linkage.Token.Basic

/-!
# Linkage.Token.Scan

Cutting a source into tokens. `munch` decides from the characters ahead what they begin with and
how many of them belong to it; `scan` skips what separates tokens, cuts off one piece after the
other and keeps count of the position. Every piece is at least one character long, so the scan
ends.
-/

namespace Linkage

/-- The position of a character: its line and its column in bytes. -/
structure Place where
  line : UInt32
  col : UInt32
  deriving DecidableEq

namespace Place

def start : Place := ⟨1, 1⟩

/-- The position after one character. -/
def step (p : Place) (c : Char) : Place :=
  if c = '\n' then ⟨p.line + 1, 1⟩ else ⟨p.line, p.col + UInt32.ofNat c.utf8Size⟩

def advance (p : Place) (cs : List Char) : Place := cs.foldl step p

/-- The span of a piece of text that begins here. -/
def span (p : Place) (cs : List Char) : Span :=
  ⟨p.line, p.col, UInt32.ofNat (Text.byteLength cs)⟩

end Place

namespace Token

def isIdentStart (c : Char) : Bool := c.isAlpha || c == '_'

def isIdentContinue (c : Char) : Bool := c.isAlphanum || c == '_'

/-- The number of characters at the front that satisfy the test. -/
def run (test : Char → Bool) (cs : List Char) : Nat := (cs.takeWhile test).length

/-- What the characters ahead begin with. -/
inductive Munch where
  | comment
  | token (kind : Kind)
  | error (cause : LexError.Cause)

/-! ## Comments and strings -/

/-- The characters up to and including the mark that closes a block comment. -/
def commentLength : List Char → Option Nat
  | '*' :: '/' :: _ => some 2
  | _ :: cs => (commentLength cs).map (· + 1)
  | [] => none

/--
The characters of a string after its opening quote, and whether a closing quote is the last of
them. A string ends before a line break; a backslash takes the next character with it unless that
is a line feed.
-/
def stringLength : List Char → Nat × Bool
  | [] => (0, false)
  | '"' :: _ => (1, true)
  | '\n' :: _ => (0, false)
  | '\r' :: _ => (0, false)
  | ['\\'] => (1, false)
  | '\\' :: d :: cs =>
    if d = '\n' then (1, false)
    else
      let (n, closed) := stringLength cs
      (n + 2, closed)
  | _ :: cs =>
    let (n, closed) := stringLength cs
    (n + 1, closed)

/-! ## Numbers -/

/-- A point counts only when a digit follows it. -/
def fractionLength : List Char → Nat
  | '.' :: c :: cs => if c.isDigit then 2 + run Char.isDigit cs else 0
  | _ => 0

/-- An `e` counts only when a digit follows it, a sign between them allowed. -/
def exponentLength : List Char → Nat
  | e :: c :: cs =>
    if e = 'e' ∨ e = 'E' then
      if c.isDigit then 2 + run Char.isDigit cs
      else if c = '+' ∨ c = '-' then
        match cs with
        | d :: ds => if d.isDigit then 3 + run Char.isDigit ds else 0
        | [] => 0
      else 0
    else 0
  | _ => 0

/-- A number that starts with the digit `c`. Letters may not follow it directly. -/
def munchNumber (c : Char) (cs : List Char) : Munch × Nat :=
  let whole := run Char.isDigit cs
  let fraction := fractionLength (cs.drop whole)
  let exponent := exponentLength (cs.drop (whole + fraction))
  let length := whole + fraction + exponent
  let suffix := match cs.drop length with
    | d :: ds => if isIdentStart d then (d :: ds).takeWhile isIdentContinue else []
    | [] => []
  if suffix ≠ [] then
    (.error (.numberSuffix (String.ofList suffix)), length + suffix.length)
  else if fraction + exponent ≠ 0 then (.token .floatLiteral, length)
  else if Decimal.toNat (c :: cs.take whole) < 0x8000000000000000 then (.token .intLiteral, length)
  else (.error .integerTooLarge, length)

/-! ## Scanning -/

/-- What begins with the character `c` before `cs`, and how many of `cs` belong to it. -/
def munch (c : Char) (cs : List Char) : Munch × Nat :=
  if c = '/' ∧ cs.head? = some '/' then (.comment, run (· ≠ '\n') cs)
  else if c = '/' ∧ cs.head? = some '*' then
    match commentLength cs.tail with
    | some n => (.comment, n + 1)
    | none => (.error .unterminatedComment, cs.length)
  else if c = '"' then
    let (n, closed) := stringLength cs
    (if closed then .token .stringLiteral else .error .unterminatedString, n)
  else if c.isDigit then munchNumber c cs
  else if isIdentStart c then
    let n := run isIdentContinue cs
    let word := String.ofList (c :: cs.take n)
    (.token ((Kind.ofKeyword? word).getD .identifier), n)
  else
    match Kind.ofPunctuation? c with
    | some kind => (.token kind, 0)
    | none => (.error (.unexpectedChar c), 0)

/-- The white space ahead, with one byte-order mark allowed in front of it. -/
def blankLength : List Char → Nat
  | '\ufeff' :: cs => 1 + run Text.isBlankChar cs
  | cs => run Text.isBlankChar cs

/-- The pieces from this place to the end of the source, the last one being the end itself. -/
def scan (p : Place) (cs : List Char) : List Piece :=
  let blank := blankLength cs
  let p := p.advance (cs.take blank)
  match _h : cs.drop blank with
  | [] => [.token (.endAt p.line p.col)]
  | c :: rest =>
    let (found, n) := munch c rest
    let text := c :: rest.take n
    let next := scan (p.advance text) (rest.drop n)
    match found with
    | .comment => next
    | .token kind => .token ⟨kind, String.ofList text, p.span text⟩ :: next
    | .error cause => .error ⟨cause, p.span text⟩ :: next
termination_by cs.length
decreasing_by
  have := congrArg List.length _h
  simp only [List.length_drop, List.length_cons] at this ⊢
  omega

/-- The pieces of a whole source. -/
def ofSource (source : String) : List Piece := scan .start source.toList

end Token

end Linkage
