import BraceTemplate.Table

/-!
# Template data

A `Value` is what template data and variables hold: a tree of lists and maps over scalars. A
whole number is a 64-bit integer and never equals a float; floats compare as numbers, so NaN
differs from itself and the two zeros are equal.
-/

namespace BraceTemplate

inductive Value where
  /-- Absent data; also what a missing variable stands for. -/
  | null
  | bool (b : Bool)
  | number (n : Int64)
  | float (x : Float)
  | string (s : String)
  | list (items : List Value)
  /-- Entries in ascending order of their keys, see `Table`. -/
  | map (entries : List (String × Value))

instance : Inhabited Value := ⟨.null⟩

namespace Value

mutual

/-- Equality of values: of one kind, and with equal contents. -/
def beq : Value → Value → Bool
  | null, null => true
  | bool a, bool b => a == b
  | number a, number b => a == b
  | float a, float b => a == b
  | string a, string b => a == b
  | list as, list bs => beqItems as bs
  | map as, map bs => beqEntries as bs
  | _, _ => false

def beqItems : List Value → List Value → Bool
  | [], [] => true
  | a :: as, b :: bs => beq a b && beqItems as bs
  | _, _ => false

def beqEntries : List (String × Value) → List (String × Value) → Bool
  | [], [] => true
  | (k, a) :: as, (l, b) :: bs => k == l && beq a b && beqEntries as bs
  | _, _ => false

end

instance : BEq Value := ⟨beq⟩

def isNull : Value → Bool
  | null => true
  | _ => false

/-- Truth as conditional helpers usually take it: null, false, zero, the empty string and the
empty list are false, all else is true, NaN and the empty map included. -/
def isTruthy : Value → Bool
  | null => false
  | bool b => b
  | number n => n != 0
  | float x => x != 0
  | string s => s != ""
  | list items => !items.isEmpty
  | map _ => true

def bool? : Value → Option Bool
  | bool b => some b
  | _ => none

def number? : Value → Option Int64
  | number n => some n
  | _ => none

/-- The value as a float; a whole number is rounded to the nearest one. -/
def float? : Value → Option Float
  | float x => some x
  | number n => some n.toFloat
  | _ => none

def string? : Value → Option String
  | string s => some s
  | _ => none

def list? : Value → Option (List Value)
  | list items => some items
  | _ => none

def map? : Value → Option (Table Value)
  | map entries => some entries
  | _ => none

end Value
end BraceTemplate
