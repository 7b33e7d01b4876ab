import Linkage.Handle

/-!
# Linkage.Evaluation

The values of constants at run time. An unfolded constant is computed from its expression, and
references into other modules are followed through a resolver.

Constants are known by the name of their module and their own name. Values found on the way are
kept, so a constant that is used twice is computed once; a constant that is needed while it is
being computed is a cycle.

* `visit` — finds the value of a constant and of all it depends on, leftmost reference first.
* `Handle.evaluate` — the value of one constant.
-/

namespace Linkage

inductive EvalError where
  | unknownConstant (module name : String)
  | unresolvedModule (module : String)
  | cycle (module name : String)
  | tooManyLevels (module name : String)
  | arithmetic (error : ArithmeticError)
  deriving DecidableEq

def EvalError.message : EvalError → String
  | .unknownConstant m n => "module '" ++ m ++ "' has no constant '" ++ n ++ "'"
  | .unresolvedModule m => "module '" ++ m ++ "' could not be resolved"
  | .cycle m n => "constant '" ++ m ++ "." ++ n ++ "' depends on itself"
  | .tooManyLevels m n => "constant '" ++ m ++ "." ++ n ++ "' is nested too deeply to evaluate"
  | .arithmetic e => e.message

namespace Evaluation

/-- A constant by its module's name and its own. -/
abbrev Key : Type := String × String

/-- The values found so far. -/
abbrev Known : Type := List (Key × Value)

/-- The module that a reference made from inside a module points into. -/
def target (resolver : Resolver) (home : Handle) : Option String → Except EvalError Handle
  | none => .ok home
  | some m =>
    if m = home.name then .ok home
    else
      match resolver.get? m with
      | some h => .ok h
      | none => .error (.unresolvedModule m)

/-- The modules of all these references, or the first one that is not found. -/
def targets (resolver : Resolver) (home : Handle) :
    List (Option String × String) → Except EvalError (List (Handle × String))
  | [] => .ok []
  | (m, name) :: refs =>
    match target resolver home m with
    | .error e => .error e
    | .ok h =>
      match targets resolver home refs with
      | .error e => .error e
      | .ok hs => .ok ((h, name) :: hs)

def settle : Except ArithmeticError Value → Except EvalError Value
  | .ok v => .ok v
  | .error e => .error (.arithmetic e)

/-- The value of an expression in this module whose references all have known values. -/
def compute (known : Known) (module : String) : ConstExpr → Except EvalError Value
  | .literal v => .ok v
  | .ref m name =>
    let m := m.getD module
    match known.lookup (m, name) with
    | some v => .ok v
    | none => .error (.unknownConstant m name)
  | .negate e =>
    match compute known module e with
    | .error e => .error e
    | .ok v => settle v.negate
  | .binary op l r =>
    match compute known module l with
    | .error e => .error e
    | .ok v =>
      match compute known module r with
      | .error e => .error e
      | .ok w => settle (v.apply op w)

/-- Visits one constant after the other and stops at the first error. -/
def visitAll (visit : Known → Handle → String → Except EvalError Known) :
    Known → List (Handle × String) → Except EvalError Known
  | known, [] => .ok known
  | known, (h, name) :: others =>
    match visit known h name with
    | .error e => .error e
    | .ok known => visitAll visit known others

/--
Adds the value of a constant and of all it depends on to the known ones. `active` are the
constants whose computation needs this one. The first number bounds how many of them there can
be: they are different constants of the modules at hand.
-/
def visit (resolver : Resolver) :
    Nat → List Key → Known → Handle → String → Except EvalError Known
  | 0, _, _, h, name => .error (.cycle h.name name)
  | bound + 1, active, known, h, name =>
    let key := (h.name, name)
    if (known.lookup key).isSome then .ok known
    else
      match h.interface.const? name with
      | none => .error (.unknownConstant h.name name)
      | some c =>
        match c.init with
        | .value v => .ok ((key, v) :: known)
        | .expr e =>
          if active.contains key then .error (.cycle h.name name)
          else if maxLevels < e.height then .error (.tooManyLevels h.name name)
          else
            match targets resolver h e.refs with
            | .error e => .error e
            | .ok needed =>
              match visitAll (visit resolver bound (key :: active)) known needed with
              | .error e => .error e
              | .ok known =>
                match compute known h.name e with
                | .error e => .error e
                | .ok v => .ok ((key, v) :: known)

/-- More constants than can be active at once. -/
def bound (resolver : Resolver) (h : Handle) : Nat :=
  h.interface.constants.length +
    (resolver.entries.flatMap fun e => e.2.interface.constants).length + 1

end Evaluation

/-- The value of a constant of a loaded module. -/
def Handle.evaluate (h : Handle) (name : String) (resolver : Resolver) : Except EvalError Value :=
  match Evaluation.visit resolver (Evaluation.bound resolver h) [] [] h name with
  | .error e => .error e
  | .ok known =>
    match known.lookup (h.name, name) with
    | some v => .ok v
    | none => .error (.unknownConstant h.name name)

end Linkage
