import Linkage.Script.Expression
import Linkage.Token.Scan

/-!
# Linkage.Script.Parse

Reading the declarations of a source unit. Reading never stops at an error: what is left of a
broken field or declaration is skipped, so one reading finds every error of the unit and every
declaration that is sound.
-/

namespace Linkage
namespace Script

/-! ## Recovery -/

namespace State

/-- Skips past the next `;`, or up to a `}`, by at most one token for each piece in `bound`. -/
def skipField : List Piece → State → State
  | [], s => s
  | _ :: bound, s =>
    match s.current.kind with
    | .eof => s
    | .rightBrace => s
    | .semicolon => s.bump
    | _ => skipField bound s.bump

/-- Skips the rest of a broken field. -/
def recoverField (s : State) : State := skipField s.rest s

/--
Skips to a token that starts a declaration outside of any braces opened on the way, by at most one
token for each piece in `bound`.
-/
def skipItem : List Piece → Nat → State → State
  | [], _, s => s
  | _ :: bound, depth, s =>
    match s.current.kind with
    | .eof => s
    | .leftBrace => skipItem bound (depth + 1) s.bump
    | .rightBrace => skipItem bound (depth - 1) s.bump
    | kind => if kind.startsItem && depth == 0 then s else skipItem bound depth s.bump

/-- Skips the rest of a broken declaration. -/
def recoverItem (s : State) : State := skipItem s.rest 0 s

end State

/-! ## Types -/

namespace Reader

def field : Reader FieldDecl := do
  let name ← ident
  let _ ← expect .colon
  let type ← path
  let last ← expect .semicolon
  return ⟨name, type, name.span.merge last.span⟩

/-- The fields up to the `}`, sound or broken, at most one for each piece in `bound`. -/
def fieldsUpTo : List Piece → State → List FieldDecl × State
  | [], s => ([], s)
  | _ :: bound, s =>
    if s.current.kind = .rightBrace ∨ s.current.kind = .eof then ([], s)
    else
      match field s with
      | .ok f t =>
        let (fs, u) := fieldsUpTo bound t
        (f :: fs, u)
      | .error e t => fieldsUpTo bound (t.report e).recoverField

def fields : Reader (List FieldDecl) := fun s =>
  let (fs, t) := fieldsUpTo s.rest s
  .ok fs t

def modifier? : Token.Kind → Option Modifiers
  | .keySealed => some .sealed
  | .keyAbstract => some .abstract
  | _ => none

/--
The modifiers ahead, at most one for each piece in `bound`; a repeated one is reported and counts
once.
-/
def modifiersUpTo : List Piece → Modifiers → State → Modifiers × State
  | [], seen, s => (seen, s)
  | _ :: bound, seen, s =>
    match modifier? s.current.kind with
    | none => (seen, s)
    | some m =>
      let t := s.bump
      let t := if seen.has m
        then t.report ⟨.duplicateModifier s.current, s.current.span⟩ else t
      modifiersUpTo bound (seen.union m) t

def modifiers : Reader Modifiers := fun s =>
  let (ms, t) := modifiersUpTo s.rest .empty s
  .ok ms t

def typeDecl : Reader TypeDecl := do
  let first ← current
  let modifiers ← modifiers
  let _ ← expect .keyType
  let name ← ident
  let base ← if ← skip .keyExtends then some <$> path else pure none
  let _ ← expect .leftBrace
  let fields ← fields
  let last ← expect .rightBrace
  return ⟨modifiers, name, base, fields, first.span.merge last.span⟩

/-! ## Declarations -/

def constDecl : Reader ConstDecl := do
  let first ← next
  let name ← ident
  let _ ← expect .equal
  let value ← expression
  let last ← expect .semicolon
  return ⟨name, value.expr, first.span.merge last.span⟩

/-- A token that starts no declaration is passed over. -/
def item : Reader Item := do
  let t ← current
  match t.kind with
  | .keyConst => .const <$> constDecl
  | .keyType => .type <$> typeDecl
  | .keySealed => .type <$> typeDecl
  | .keyAbstract => .type <$> typeDecl
  | _ =>
    let found ← next
    ofExcept (.error ⟨.expectedDeclaration found, found.span⟩)

/-- The declarations up to the end, sound or broken, at most one for each piece in `bound`. -/
def itemsUpTo : List Piece → State → List Item × State
  | [], s => ([], s)
  | _ :: bound, s =>
    if s.current.kind = .eof then ([], s)
    else
      match item s with
      | .ok i t =>
        let (is, u) := itemsUpTo bound t
        (i :: is, u)
      | .error e t => itemsUpTo bound (t.report e).recoverItem

end Reader

/-! ## Units -/

def ofPieces (pieces : List Piece) : Script × List ParseError :=
  let s := State.ofPieces pieces
  let (items, t) := Reader.itemsUpTo s.rest s
  (⟨items, s.current.span.merge t.current.span⟩, t.errors.toList)

/-- The sound declarations of a source with every error in it. -/
def parse (source : String) : Script × List ParseError := ofPieces (Token.ofSource source)

/-- The declarations of a source without errors. -/
def parse? (source : String) : Except (List ParseError) Script :=
  match parse source with
  | (script, []) => .ok script
  | (_, errors) => .error errors

end Script
end Linkage
