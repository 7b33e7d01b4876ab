import Linkage.Binary64
import Linkage.Decimal.Shortest
import Linkage.Text.Quoted

/-!
# Linkage.Value.Basic

The values a constant can have, their kinds and their texts.
-/

namespace Linkage

/-- The kinds of values; each is named like the builtin type of its values. -/
inductive Kind where
  | int
  | float
  | bool
  | string
  deriving DecidableEq, Inhabited

namespace Kind

def name : Kind → String
  | .int => "int"
  | .float => "float"
  | .bool => "bool"
  | .string => "string"

def isNumeric : Kind → Bool
  | .int => true
  | .float => true
  | .bool => false
  | .string => false

end Kind

inductive Value where
  | int (i : Int64)
  | float (x : Binary64)
  | bool (b : Bool)
  | string (s : String)
  deriving DecidableEq, Inhabited

namespace Value

def kind : Value → Kind
  | .int _ => .int
  | .float _ => .float
  | .bool _ => .bool
  | .string _ => .string

def asInt : Value → Option Int64
  | .int i => some i
  | _ => none

/-- Integers count as floats, rounded to the nearest one. -/
def asFloat : Value → Option Binary64
  | .float x => some x
  | .int i => some (.ofInt i.toInt)
  | _ => none

def asString : Value → Option String
  | .string s => some s
  | _ => none

/-! ## Text -/

/-- Magnitudes from 0.0001 up to, but not including, 10 ^ 16 are written without an exponent. -/
def floatLayout : Decimal.Layout := ⟨-4, 15⟩

def floatText (x : Binary64) : String :=
  match x.shape with
  | .nan => "NaN"
  | .infinite s => if s then "-inf" else "inf"
  | .finite s m e =>
    let magnitude :=
      if m = 0 then "0.0"
      else
        let (c, k) := Decimal.shortest m e
        String.ofList (floatLayout.write c k)
    if s then "-" ++ magnitude else magnitude

def text : Value → String
  | .int i => toString i.toInt
  | .float x => floatText x
  | .bool b => if b then "true" else "false"
  | .string s => Text.quoted s

end Value

end Linkage
