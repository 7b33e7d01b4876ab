import Linkage.Value.Basic

/-!
# Linkage.Value.Arithmetic

The operators of constant expressions. Folding at compile time and evaluation at run time both
use these.

* `Value.apply` — a binary operator on two values: exact on integers that fit 64 bits, on floats
  where at least one operand is a float, and `+` on two strings.
* `Value.negate` — unary minus on a number.
* `Operator.resultKind` — the kind of a result from the kinds of the operands alone.
-/

namespace Linkage

inductive Operator where
  | add
  | sub
  | mul
  | div
  | rem
  deriving DecidableEq, Inhabited

namespace Operator

def symbol : Operator → String
  | .add => "+"
  | .sub => "-"
  | .mul => "*"
  | .div => "/"
  | .rem => "%"

/-- Whether a zero on the right has no result. -/
def divides : Operator → Bool
  | .div => true
  | .rem => true
  | _ => false

def resultKind (op : Operator) : Kind → Kind → Option Kind
  | .int, .int => some .int
  | .int, .float => some .float
  | .float, .int => some .float
  | .float, .float => some .float
  | .string, .string => if op = .add then some .string else none
  | _, _ => none

end Operator

inductive ArithmeticError where
  | divisionByZero
  | overflow (op : Operator)
  | mismatch (op : Operator) (lhs rhs : Kind)
  | notNumeric (kind : Kind)
  deriving DecidableEq

def ArithmeticError.message : ArithmeticError → String
  | .divisionByZero => "division by zero"
  | .overflow op => "integer overflow in '" ++ op.symbol ++ "'"
  | .mismatch op l r =>
    "operator '" ++ op.symbol ++ "' cannot be applied to " ++ l.name ++ " and " ++ r.name
  | .notNumeric k => "cannot negate a value of type " ++ k.name

/-! ## Integers -/

/-- The 64-bit integer of this value, if there is one. -/
def fitInt64? (i : Int) : Option Int64 :=
  if Int64.minValue.toInt ≤ i ∧ i ≤ Int64.maxValue.toInt then some (.ofInt i) else none

namespace Operator

/-- The exact result; quotients are truncated toward zero and remainders belong to them. -/
def exact : Operator → Int → Int → Int
  | .add, a, b => a + b
  | .sub, a, b => a - b
  | .mul, a, b => a * b
  | .div, a, b => a.tdiv b
  | .rem, a, b => a.tmod b

/--
What has to fit 64 bits for there to be a result: the result itself, but for a remainder the
quotient that it is left over from.
-/
def mustFit : Operator → Int → Int → Int
  | .rem, a, b => a.tdiv b
  | op, a, b => op.exact a b

def onInts (op : Operator) (a b : Int64) : Except ArithmeticError Int64 :=
  if op.divides && b == 0 then .error .divisionByZero
  else
    match fitInt64? (op.mustFit a.toInt b.toInt) with
    | some _ => .ok (.ofInt (op.exact a.toInt b.toInt))
    | none => .error (.overflow op)

def onFloats (op : Operator) (x y : Binary64) : Except ArithmeticError Binary64 :=
  match op with
  | .add => .ok (x.add y)
  | .sub => .ok (x.sub y)
  | .mul => .ok (x.mul y)
  | .div => if y.isZero then .error .divisionByZero else .ok (x.div y)
  | .rem => if y.isZero then .error .divisionByZero else .ok (x.rem y)

end Operator

namespace Value

def negate : Value → Except ArithmeticError Value
  | .int i =>
    match fitInt64? (-i.toInt) with
    | some n => .ok (.int n)
    | none => .error (.overflow .sub)
  | .float x => .ok (.float x.neg)
  | v => .error (.notNumeric v.kind)

def apply (op : Operator) : Value → Value → Except ArithmeticError Value
  | .int a, .int b =>
    match op.onInts a b with
    | .error e => .error e
    | .ok i => .ok (.int i)
  | .string s, .string t =>
    if op = .add then .ok (.string (s ++ t)) else .error (.mismatch op .string .string)
  | v, w =>
    match v.asFloat, w.asFloat with
    | some x, some y =>
      match op.onFloats x y with
      | .error e => .error e
      | .ok z => .ok (.float z)
    | _, _ => .error (.mismatch op v.kind w.kind)

end Value

end Linkage
