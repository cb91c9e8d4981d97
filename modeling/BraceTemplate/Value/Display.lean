import BraceTemplate.Value.Basic
import BraceTemplate.Decimal.Shortest

/-!
# The text of a value

What a tag puts into the output for a value: nothing for null and for a map, the items joined by
commas for a list.
-/

namespace BraceTemplate.Value

mutual

def display : Value → String
  | null => ""
  | bool b => if b then "true" else "false"
  | number n => Decimal.intText n.toInt
  | float x => Decimal.floatText x
  | string s => s
  | list items => ",".intercalate (displayAll items)
  | map _ => ""

def displayAll : List Value → List String
  | [] => []
  | v :: rest => display v :: displayAll rest

end

end BraceTemplate.Value
