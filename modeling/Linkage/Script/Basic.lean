import Linkage.Interface.Basic
import Linkage.Token.Basic

/-!
# Linkage.Script.Basic

A source unit as its declarations: the tree that its text stands for, every node with the span it
was written at.
-/

namespace Linkage

namespace Script

structure Ident where
  name : String
  span : Span
  deriving DecidableEq, Inhabited

/-- `Name` or `Module.Name`. -/
structure Path where
  qualifier : Option Ident
  name : Ident
  deriving DecidableEq, Inhabited

namespace Path

def span (p : Path) : Span :=
  match p.qualifier with
  | some q => q.span.merge p.name.span
  | none => p.name.span

def text (p : Path) : String :=
  match p.qualifier with
  | some q => q.name ++ "." ++ p.name.name
  | none => p.name.name

end Path

inductive Expr where
  | literal (value : Value) (span : Span)
  | path (p : Path)
  | negate (operand : Expr) (span : Span)
  | binary (op : Operator) (lhs rhs : Expr) (span : Span)
  deriving DecidableEq, Inhabited

namespace Expr

def span : Expr → Span
  | .literal _ s => s
  | .path p => p.span
  | .negate _ s => s
  | .binary _ _ _ s => s

/-- The number of levels of the tree; a leaf has one. -/
def height : Expr → Nat
  | .literal _ _ => 1
  | .path _ => 1
  | .negate e _ => e.height + 1
  | .binary _ l r _ => max l.height r.height + 1

/-- The paths in the expression from left to right. -/
def paths : Expr → List Path
  | .literal _ _ => []
  | .path p => [p]
  | .negate e _ => e.paths
  | .binary _ l r _ => l.paths ++ r.paths

end Expr

/-- `name: Type;` -/
structure FieldDecl where
  name : Ident
  type : Path
  span : Span
  deriving DecidableEq, Inhabited

/-- `sealed abstract type Name extends Base { fields }` -/
structure TypeDecl where
  modifiers : Modifiers
  name : Ident
  base : Option Path
  fields : List FieldDecl
  span : Span
  deriving DecidableEq, Inhabited

/-- `const NAME = expression;` -/
structure ConstDecl where
  name : Ident
  value : Expr
  span : Span
  deriving DecidableEq, Inhabited

inductive Item where
  | type (decl : TypeDecl)
  | const (decl : ConstDecl)
  deriving DecidableEq, Inhabited

namespace Item

def name : Item → Ident
  | .type d => d.name
  | .const d => d.name

def span : Item → Span
  | .type d => d.span
  | .const d => d.span

end Item

end Script

structure Script where
  items : List Script.Item
  span : Span
  deriving DecidableEq, Inhabited

def Script.isEmpty (s : Script) : Bool := s.items.isEmpty

end Linkage
