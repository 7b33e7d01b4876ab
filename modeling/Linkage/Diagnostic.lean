import Linkage.Span

/-!
# Linkage.Diagnostic

Messages about submitted sources. A diagnostic has a code, which fixes its severity, and usually
the place in a source unit that it is about.
-/

namespace Linkage

inductive Severity where
  | info
  | warning
  | error
  deriving DecidableEq

def Severity.name : Severity → String
  | .info => "info"
  | .warning => "warning"
  | .error => "error"

namespace Diagnostic

inductive Code where
  | malformed
  | unresolvedModule
  | unknownType
  | unknownConstant
  | duplicateDefinition
  | duplicateField
  | shadowedField
  | invalidBase
  | sealedBase
  | inheritanceCycle
  | conflictingModifiers
  | typeMismatch
  | divisionByZero
  | constantCycle
  | arithmeticOverflow
  | blankSourceSkipped
  deriving DecidableEq, Inhabited

namespace Code

def name : Code → String
  | .malformed => "MLK0001"
  | .unresolvedModule => "MLK0100"
  | .unknownType => "MLK0101"
  | .unknownConstant => "MLK0102"
  | .duplicateDefinition => "MLK0200"
  | .duplicateField => "MLK0201"
  | .shadowedField => "MLK0202"
  | .invalidBase => "MLK0203"
  | .sealedBase => "MLK0204"
  | .inheritanceCycle => "MLK0205"
  | .conflictingModifiers => "MLK0206"
  | .typeMismatch => "MLK0300"
  | .divisionByZero => "MLK0301"
  | .constantCycle => "MLK0302"
  | .arithmeticOverflow => "MLK0303"
  | .blankSourceSkipped => "MLK0900"

def severity : Code → Severity
  | .shadowedField => .warning
  | .blankSourceSkipped => .info
  | _ => .error

end Code

/-- A span of the source unit with this index in the order of submission. -/
structure Location where
  unit : Nat
  span : Span
  deriving DecidableEq

end Diagnostic

structure Diagnostic where
  code : Diagnostic.Code
  message : String
  location : Option Diagnostic.Location
  deriving DecidableEq

namespace Diagnostic

def severity (d : Diagnostic) : Severity := d.code.severity

def isError (d : Diagnostic) : Bool := d.severity == .error

def text (d : Diagnostic) : String :=
  let place := match d.location with
    | some l => "unit " ++ toString l.unit ++ " " ++ l.span.text ++ ": "
    | none => ""
  place ++ d.severity.name ++ " " ++ d.code.name ++ ": " ++ d.message

end Diagnostic

end Linkage
