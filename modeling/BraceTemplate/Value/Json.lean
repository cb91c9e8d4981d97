import BraceTemplate.Decimal.Nearest
import BraceTemplate.Json.Basic
import BraceTemplate.Value.Basic

/-!
# Template data from JSON

A number that was written whole and fits into 64 bits is a whole number; minus zero, which does
not, and every other number is the nearest float, as far as its `significantDigits` tell. Of two
members with one name the last counts.
-/

namespace BraceTemplate.Value

/-- The significant digits of a number that are read. A half-way point between two floats has no
more, so that the cut matters only where nothing but zeros follows such a point: the number then
counts as more than it. -/
def significantDigits : Nat := 768

/-- The value of a JSON number, `none` beyond the range of floats. -/
def ofNumber (negative whole : Bool) (magnitude : Decimal.Numeral) : Option Value :=
  let n : Int := if negative then -magnitude.digits else magnitude.digits
  if whole ∧ ¬ (negative ∧ magnitude.digits = 0) ∧ -(Int.pow 2 63) ≤ n ∧ n < Int.pow 2 63 then
    some (.number (Int64.ofInt n))
  else
    let read := magnitude.cut significantDigits
    (Decimal.nearest read.digits read.exponent).map fun bits =>
      .float (Float.ofBits (UInt64.ofNat (if negative then bits + Nat.pow 2 63 else bits)))

mutual

def ofJson : Json → Option Value
  | .null => some .null
  | .bool b => some (.bool b)
  | .number negative whole magnitude => ofNumber negative whole magnitude
  | .string s => some (.string s)
  | .array items => (ofItems items).map .list
  | .object members => (ofMembers members).map fun es => .map (Table.ofList es)

def ofItems : List Json → Option (List Value)
  | [] => some []
  | j :: rest => do return (← ofJson j) :: (← ofItems rest)

def ofMembers : List (String × Json) → Option (List (String × Value))
  | [] => some []
  | (name, j) :: rest => do return (name, ← ofJson j) :: (← ofMembers rest)

end

/-- The levels of arrays and objects that a JSON text may have. -/
def jsonDepth : Nat := 127

def readJson (text : String) : Option Value := do
  ofJson (← Json.read jsonDepth text.toList)

end BraceTemplate.Value
