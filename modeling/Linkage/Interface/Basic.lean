import Linkage.Hash.Member
import Linkage.Value.Arithmetic

/-!
# Linkage.Interface.Basic

What a module shows to other modules: its types and its constants, and the names of the modules
it uses. An interface is what an image holds and what a compile resolves names against.
-/

namespace Linkage

/-! ## Types -/

/-- The builtin types are the kinds of values; every module can name them. -/
def Kind.ofName? : String → Option Kind
  | "int" => some .int
  | "float" => some .float
  | "bool" => some .bool
  | "string" => some .string
  | _ => none

/-- A type as seen from the module that mentions it. -/
inductive TypeRef where
  | builtin (kind : Kind)
  | own (name : String)
  | imported (module name : String)
  deriving DecidableEq, Inhabited

namespace TypeRef

def text : TypeRef → String
  | .builtin k => k.name
  | .own n => n
  | .imported m n => m ++ "." ++ n

/-- The other module that the reference leads into, if it leaves its own. -/
def module? : TypeRef → Option String
  | .imported m _ => some m
  | _ => none

end TypeRef

/-- Declaration modifiers as a bit set; bits without a meaning are carried along. -/
structure Modifiers where
  bits : UInt8
  deriving DecidableEq, Inhabited

namespace Modifiers

def empty : Modifiers := ⟨0⟩

/-- A sealed type cannot be extended. -/
def sealed : Modifiers := ⟨1⟩

/-- An abstract type only exists to be extended. -/
def abstract : Modifiers := ⟨2⟩

def union (a b : Modifiers) : Modifiers := ⟨a.bits ||| b.bits⟩

def has (a b : Modifiers) : Bool := a.bits &&& b.bits == b.bits

def isSealed (a : Modifiers) : Bool := a.has sealed

def isAbstract (a : Modifiers) : Bool := a.has abstract

end Modifiers

structure Field where
  name : String
  type : TypeRef
  deriving DecidableEq, Inhabited

structure TypeDef where
  name : String
  hash : MemberHash
  modifiers : Modifiers
  base : Option TypeRef
  fields : List Field
  deriving DecidableEq, Inhabited

namespace TypeDef

/-- A type of this module, with the hash that its name gives it. -/
def make (module name : String) (modifiers : Modifiers) (base : Option TypeRef)
    (fields : List Field) : TypeDef :=
  ⟨name, .ofType module name, modifiers, base, fields⟩

def field? (t : TypeDef) (name : String) : Option Field := t.fields.find? (·.name == name)

end TypeDef

/-! ## Constants -/

/-- The levels a constant expression may have, wherever it is read or evaluated. -/
def maxLevels : Nat := 256

/-- A constant expression; a reference without a module is to the module it stands in. -/
inductive ConstExpr where
  | literal (value : Value)
  | ref (module : Option String) (name : String)
  | negate (operand : ConstExpr)
  | binary (op : Operator) (lhs rhs : ConstExpr)
  deriving DecidableEq, Inhabited

namespace ConstExpr

def text : ConstExpr → String
  | .literal v => v.text
  | .ref (some m) n => m ++ "." ++ n
  | .ref none n => n
  | .negate e => "-(" ++ e.text ++ ")"
  | .binary op l r => "(" ++ l.text ++ " " ++ op.symbol ++ " " ++ r.text ++ ")"

/-- The number of levels of the tree; a leaf has one. -/
def height : ConstExpr → Nat
  | .literal _ => 1
  | .ref _ _ => 1
  | .negate e => e.height + 1
  | .binary _ l r => max l.height r.height + 1

/-- The references in the expression from left to right, repetitions included. -/
def refs : ConstExpr → List (Option String × String)
  | .literal _ => []
  | .ref m n => [(m, n)]
  | .negate e => e.refs
  | .binary _ l r => l.refs ++ r.refs

end ConstExpr

/-- A constant is stored as its value or as the expression to evaluate for it. -/
inductive Init where
  | value (v : Value)
  | expr (e : ConstExpr)
  deriving DecidableEq, Inhabited

def Init.text : Init → String
  | .value v => v.text
  | .expr e => e.text

structure ConstDef where
  name : String
  kind : Kind
  init : Init
  deriving DecidableEq, Inhabited

/-- The stored value, if the constant is stored as one. -/
def ConstDef.folded? (c : ConstDef) : Option Value :=
  match c.init with
  | .value v => some v
  | .expr _ => none

/-! ## Modules -/

/-- How a module was built: with its constants unfolded or folded. -/
inductive Optimization where
  | debug
  | release
  deriving DecidableEq, Inhabited

def Optimization.name : Optimization → String
  | .debug => "debug"
  | .release => "release"

structure Interface where
  name : String
  optimization : Optimization
  /-- The other modules that this one uses. -/
  references : List String
  types : List TypeDef
  constants : List ConstDef
  deriving DecidableEq, Inhabited

namespace Interface

/-- The first type of this name. -/
def type? (i : Interface) (name : String) : Option TypeDef := i.types.find? (·.name == name)

/-- The first constant of this name. -/
def const? (i : Interface) (name : String) : Option ConstDef :=
  i.constants.find? (·.name == name)

def typeByHash? (i : Interface) (hash : MemberHash) : Option TypeDef :=
  i.types.find? (·.hash == hash)

/-- Whether the module has no members at all. -/
def isEmpty (i : Interface) : Bool := i.types.isEmpty && i.constants.isEmpty

theorem mem_of_type? {i : Interface} {name : String} {t : TypeDef} (h : i.type? name = some t) :
    t ∈ i.types :=
  List.mem_of_find?_eq_some h

theorem mem_of_const? {i : Interface} {name : String} {c : ConstDef}
    (h : i.const? name = some c) : c ∈ i.constants :=
  List.mem_of_find?_eq_some h

theorem name_of_type? {i : Interface} {name : String} {t : TypeDef} (h : i.type? name = some t) :
    t.name = name :=
  beq_iff_eq.1 (List.find?_some (p := fun t : TypeDef => t.name == name) h)

theorem name_of_const? {i : Interface} {name : String} {c : ConstDef}
    (h : i.const? name = some c) : c.name = name :=
  beq_iff_eq.1 (List.find?_some (p := fun c : ConstDef => c.name == name) h)

end Interface

end Linkage
