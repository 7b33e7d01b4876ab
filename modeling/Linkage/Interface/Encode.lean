import Linkage.Interface.Basic
import Linkage.Wire.Write

/-!
# Linkage.Interface.Encode

Module images: the bytes of an interface. Every list and every text has its length in front;
alternatives start with a tag; a stored value is written without its kind, which stands before it
in the record.
-/

namespace Linkage

open Wire

def Kind.tag : Kind → UInt8
  | .int => 0
  | .float => 1
  | .bool => 2
  | .string => 3

def Optimization.tag : Optimization → UInt8
  | .debug => 0
  | .release => 1

def Operator.tag : Operator → UInt8
  | .add => 0
  | .sub => 1
  | .mul => 2
  | .div => 3
  | .rem => 4

def TypeRef.encode : TypeRef → Bytes
  | .builtin k => [0, k.tag]
  | .own n => 1 :: str n
  | .imported m n => 2 :: (str m ++ str n)

def Value.encode : Value → Bytes
  | .int i => u64 i.toUInt64
  | .float x => u64 x.bits
  | .bool b => flag b
  | .string s => str s

def ConstExpr.encode : ConstExpr → Bytes
  | .literal v => 0 :: v.kind.tag :: v.encode
  | .ref none n => 1 :: str n
  | .ref (some m) n => 2 :: (str m ++ str n)
  | .negate e => 3 :: e.encode
  | .binary op l r => 4 :: op.tag :: (l.encode ++ r.encode)

def Init.encode : Init → Bytes
  | .value v => 0 :: v.encode
  | .expr e => 1 :: e.encode

def Field.encode (f : Field) : Bytes := str f.name ++ f.type.encode

/-- The hash is not written, since the names determine it. -/
def TypeDef.encode (t : TypeDef) : Bytes :=
  let base := match t.base with
    | some b => flag true ++ b.encode
    | none => flag false
  str t.name ++ t.modifiers.bits :: (base ++ list Field.encode t.fields)

def ConstDef.encode (c : ConstDef) : Bytes :=
  str c.name ++ c.kind.tag :: c.init.encode

namespace Interface

/-- The format of images: "MLNK", version 1. -/
def format : Format := ⟨[0x4d, 0x4c, 0x4e, 0x4b], 1⟩

def body (i : Interface) : Bytes :=
  i.optimization.tag :: (str i.name ++ list str i.references ++
    list TypeDef.encode i.types ++ list ConstDef.encode i.constants)

def encode (i : Interface) : Bytes := format.envelope i.body

end Interface

end Linkage
