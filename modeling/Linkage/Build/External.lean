import Linkage.Snapshot

/-!
# Linkage.Build.External

The values of other modules' constants as a compile sees them: stored values as they are, unfolded
ones evaluated against the same snapshot. Every reference followed and every level of an expression
takes one from a budget, so a chain that is too long, or that never ends, has no value.
-/

namespace Linkage
namespace Snapshot

def externalLevels : Nat := 1025

/-- The value of an expression that stands in this module. -/
def exprValue? (s : Snapshot) : Nat → String → ConstExpr → Option Value
  | 0, _, _ => none
  | _ + 1, _, .literal v => some v
  | budget + 1, module, .ref target name =>
    let target := target.getD module
    match s.const? target name with
    | none => none
    | some c =>
      match c.init with
      | .value v => some v
      | .expr e => s.exprValue? budget target e
  | budget + 1, module, .negate e =>
    match s.exprValue? budget module e with
    | none => none
    | some v => v.negate.toOption
  | budget + 1, module, .binary op l r =>
    match s.exprValue? budget module l with
    | none => none
    | some v =>
      match s.exprValue? budget module r with
      | none => none
      | some w => (v.apply op w).toOption

/-- The value of a constant of this module. -/
def constValue? (s : Snapshot) (module : String) (c : ConstDef) : Option Value :=
  match c.init with
  | .value v => some v
  | .expr e => s.exprValue? externalLevels module e

end Snapshot
end Linkage
