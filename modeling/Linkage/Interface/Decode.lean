import Linkage.Interface.Encode
import Linkage.Wire.Read

/-!
# Linkage.Interface.Decode

Reading module images. A type gets the hash that its module and its name give it, and a constant
expression may not have more than `maxLevels` levels.
-/

namespace Linkage

open Wire

def Kind.ofTag? : UInt8 → Option Kind
  | 0 => some .int
  | 1 => some .float
  | 2 => some .bool
  | 3 => some .string
  | _ => none

def Optimization.ofTag? : UInt8 → Option Optimization
  | 0 => some .debug
  | 1 => some .release
  | _ => none

def Operator.ofTag? : UInt8 → Option Operator
  | 0 => some .add
  | 1 => some .sub
  | 2 => some .mul
  | 3 => some .div
  | 4 => some .rem
  | _ => none

/-- Only bits with a meaning can be read. -/
def Modifiers.ofBits? (b : UInt8) : Option Modifiers :=
  if b < 4 then some ⟨b⟩ else none

/-- The forms of an expression. -/
inductive ExprForm where
  | literal
  | own
  | imported
  | negate
  | binary

def ExprForm.ofTag? : UInt8 → Option ExprForm
  | 0 => some .literal
  | 1 => some .own
  | 2 => some .imported
  | 3 => some .negate
  | 4 => some .binary
  | _ => none

/-- The forms of a type reference. -/
inductive RefForm where
  | builtin
  | own
  | imported

def RefForm.ofTag? : UInt8 → Option RefForm
  | 0 => some .builtin
  | 1 => some .own
  | 2 => some .imported
  | _ => none

/-- Whether a constant is stored as an expression. -/
def Init.isExprOfTag? : UInt8 → Option Bool
  | 0 => some false
  | 1 => some true
  | _ => none

def Kind.reader : Reader Kind := .tag "value kind" Kind.ofTag?

def TypeRef.reader : Reader TypeRef := do
  match ← Reader.tag "type reference" RefForm.ofTag? with
  | .builtin => return .builtin (← Reader.tag "builtin type" Kind.ofTag?)
  | .own => return .own (← Reader.string)
  | .imported =>
    let module ← Reader.string
    let name ← Reader.string
    return .imported module name

def Value.reader : Kind → Reader Value
  | .int => return .int (← Reader.u64).toInt64
  | .float => return .float ⟨← Reader.u64⟩
  | .bool => return .bool (← Reader.flag)
  | .string => return .string (← Reader.string)

/-- An expression of at most this many levels. -/
def ConstExpr.reader : Nat → Reader ConstExpr
  | 0 => .fail (.tooManyLevels maxLevels)
  | levels + 1 => do
    match ← Reader.tag "expression" ExprForm.ofTag? with
    | .literal =>
      let kind ← Kind.reader
      return .literal (← Value.reader kind)
    | .own => return .ref none (← Reader.string)
    | .imported =>
      let module ← Reader.string
      let name ← Reader.string
      return .ref (some module) name
    | .negate => return .negate (← ConstExpr.reader levels)
    | .binary =>
      let op ← Reader.tag "binary operator" Operator.ofTag?
      let lhs ← ConstExpr.reader levels
      let rhs ← ConstExpr.reader levels
      return .binary op lhs rhs

def Field.reader : Reader Field := do
  let name ← Reader.string
  let type ← TypeRef.reader
  return ⟨name, type⟩

def TypeDef.reader (module : String) : Reader TypeDef := do
  let name ← Reader.string
  let modifiers ← Reader.tag "type flags" Modifiers.ofBits?
  let base ← if ← Reader.flag then some <$> TypeRef.reader else pure none
  let fields ← Reader.list Field.reader
  return .make module name modifiers base fields

def ConstDef.reader : Reader ConstDef := do
  let name ← Reader.string
  let kind ← Kind.reader
  let isExpr ← Reader.tag "constant init" Init.isExprOfTag?
  let init ← if isExpr then Init.expr <$> ConstExpr.reader maxLevels
    else Init.value <$> Value.reader kind
  return ⟨name, kind, init⟩

namespace Interface

def reader : Reader Interface := do
  let optimization ← Reader.tag "optimization level" Optimization.ofTag?
  let name ← Reader.string
  let references ← Reader.list Reader.string
  let types ← Reader.list (TypeDef.reader name)
  let constants ← Reader.list ConstDef.reader
  return ⟨name, optimization, references, types, constants⟩

def decode (bs : Bytes) : Except FormatError Interface := format.unwrap reader bs

end Interface

end Linkage
