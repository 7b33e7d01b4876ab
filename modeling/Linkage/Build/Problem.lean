import Linkage.Diagnostic
import Linkage.Script.Error

/-!
# Linkage.Build.Problem

What can be wrong with the declarations of a module, and how it is put to the author.
-/

namespace Linkage

inductive Problem where
  | blankSource (unit : Nat)
  | malformed (error : ParseError)
  | conflictingModifiers (type : String)
  | builtinName (type : String)
  | duplicateType (name : String)
  | duplicateConstant (name : String)
  | duplicateField (field type : String)
  | unresolvedModule (module : String)
  | unknownType (module : Option String) (name : String)
  | unknownConstant (module : Option String) (name : String)
  | builtinBase (type : String) (base : Kind)
  | sealedBase (type base : String)
  | inheritanceCycle (chain : List String)
  | shadowedField (field type owner : String)
  | constantCycle (names : List String)
  | arithmetic (error : ArithmeticError)
  | notEvaluable (module name : String)
  deriving DecidableEq

namespace Problem

def code : Problem → Diagnostic.Code
  | .blankSource _ => .blankSourceSkipped
  | .malformed _ => .malformed
  | .conflictingModifiers _ => .conflictingModifiers
  | .builtinName _ => .duplicateDefinition
  | .duplicateType _ => .duplicateDefinition
  | .duplicateConstant _ => .duplicateDefinition
  | .duplicateField _ _ => .duplicateField
  | .unresolvedModule _ => .unresolvedModule
  | .unknownType _ _ => .unknownType
  | .unknownConstant _ _ => .unknownConstant
  | .builtinBase _ _ => .invalidBase
  | .sealedBase _ _ => .sealedBase
  | .inheritanceCycle _ => .inheritanceCycle
  | .shadowedField _ _ _ => .shadowedField
  | .constantCycle _ => .constantCycle
  | .arithmetic e =>
    match e with
    | .divisionByZero => .divisionByZero
    | .overflow _ => .arithmeticOverflow
    | .mismatch _ _ _ => .typeMismatch
    | .notNumeric _ => .typeMismatch
  | .notEvaluable _ _ => .unknownConstant

def message : Problem → String
  | .blankSource unit => "source unit " ++ toString unit ++ " is blank and was skipped"
  | .malformed e => e.message
  | .conflictingModifiers t => "type `" ++ t ++ "` cannot be both sealed and abstract"
  | .builtinName t => "type `" ++ t ++ "` conflicts with a builtin type"
  | .duplicateType n => "type `" ++ n ++ "` is defined more than once"
  | .duplicateConstant n => "constant `" ++ n ++ "` is defined more than once"
  | .duplicateField f t => "duplicate field `" ++ f ++ "` in type `" ++ t ++ "`"
  | .unresolvedModule m => "module `" ++ m ++ "` is not available as a reference"
  | .unknownType none n => "unknown type `" ++ n ++ "`"
  | .unknownType (some m) n => "module `" ++ m ++ "` has no type `" ++ n ++ "`"
  | .unknownConstant none n => "unknown constant `" ++ n ++ "`"
  | .unknownConstant (some m) n => "module `" ++ m ++ "` has no constant `" ++ n ++ "`"
  | .builtinBase t b => "type `" ++ t ++ "` cannot extend builtin type `" ++ b.name ++ "`"
  | .sealedBase t b => "type `" ++ t ++ "` cannot extend sealed type `" ++ b ++ "`"
  | .inheritanceCycle chain => "inheritance cycle: " ++ String.intercalate " -> " chain
  | .shadowedField f t owner =>
    "field `" ++ f ++ "` of `" ++ t ++ "` shadows the field inherited from `" ++ owner ++ "`"
  | .constantCycle [n] => "constant `" ++ n ++ "` depends on itself"
  | .constantCycle ns =>
    "constants " ++ String.intercalate ", " (ns.map fun n => "`" ++ n ++ "`") ++
      " form a dependency cycle"
  | .arithmetic e => e.message
  | .notEvaluable m n => "constant `" ++ m ++ "." ++ n ++ "` cannot be evaluated at compile time"

/-- The diagnostic for a problem at a place in a source unit. -/
def located (p : Problem) (unit : Nat) (span : Span) : Diagnostic :=
  ⟨p.code, p.message, some ⟨unit, span⟩⟩

end Problem

end Linkage
