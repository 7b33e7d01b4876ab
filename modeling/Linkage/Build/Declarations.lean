import Linkage.Build.Problem

/-!
# Linkage.Build.Declarations

The declarations of a module, gathered from all its source units in order. The first declaration
of a name is kept, and the name of a builtin type cannot be declared.
-/

namespace Linkage

/-- A declaration with the index of the source unit it stands in. -/
structure Declared (α : Type) where
  unit : Nat
  decl : α

structure Declarations where
  types : List (Declared Script.TypeDecl)
  constants : List (Declared Script.ConstDecl)

namespace Declarations

def empty : Declarations := ⟨[], []⟩

/-- The index of the type of this name. -/
def typeId? (d : Declarations) (name : String) : Option Nat :=
  d.types.findIdx? (·.decl.name.name == name)

/-- The index of the constant of this name. -/
def constId? (d : Declarations) (name : String) : Option Nat :=
  d.constants.findIdx? (·.decl.name.name == name)

/-- A sealed abstract type is reported and yet kept, so that other types can resolve it. -/
def addType (d : Declarations) (unit : Nat) (t : Script.TypeDecl) :
    Declarations × List Diagnostic :=
  let name := t.name.name
  let conflict := if t.modifiers.isSealed && t.modifiers.isAbstract
    then [(Problem.conflictingModifiers name).located unit t.span] else []
  if (Kind.ofName? name).isSome then
    (d, conflict ++ [(Problem.builtinName name).located unit t.name.span])
  else if (d.typeId? name).isSome then
    (d, conflict ++ [(Problem.duplicateType name).located unit t.name.span])
  else
    ({ d with types := d.types ++ [⟨unit, t⟩] }, conflict)

def addConst (d : Declarations) (unit : Nat) (c : Script.ConstDecl) :
    Declarations × List Diagnostic :=
  if (d.constId? c.name.name).isSome then
    (d, [(Problem.duplicateConstant c.name.name).located unit c.name.span])
  else
    ({ d with constants := d.constants ++ [⟨unit, c⟩] }, [])

def add (d : Declarations) (unit : Nat) : Script.Item → Declarations × List Diagnostic
  | .type t => d.addType unit t
  | .const c => d.addConst unit c

def addAll (d : Declarations) : List (Nat × Script.Item) → Declarations × List Diagnostic
  | [] => (d, [])
  | (unit, item) :: items =>
    let (d, first) := d.add unit item
    let (d, others) := d.addAll items
    (d, first ++ others)

/-- Every declaration of these units that can be kept, and what is wrong with the others. -/
def ofUnits (units : List (Nat × Script)) : Declarations × List Diagnostic :=
  empty.addAll (units.flatMap fun u => u.2.items.map fun item => (u.1, item))

end Declarations

end Linkage
