import BraceTemplate.Decimal.Digits
import BraceTemplate.Value.Basic

/-!
# Dotted paths

A path is a text cut at its dots into segments (`segments`); there is always at least one. A
segment leads from a value to a part of it (`Value.get?`): a key into a map, an index into a list,
and the segment `this` to the value itself. `Value.lookup` follows all segments of a path.
-/

namespace BraceTemplate

/-- The segments between the dots of a text. -/
def segmentsOf : List Char → List (List Char)
  | [] => [[]]
  | c :: rest =>
    if c = '.' then [] :: segmentsOf rest
    else
      match segmentsOf rest with
      | [] => [[c]]
      | s :: ss => (c :: s) :: ss

theorem segmentsOf_ne_nil (cs : List Char) : segmentsOf cs ≠ [] := by
  cases cs with
  | nil => simp [segmentsOf]
  | cons c rest =>
    simp only [segmentsOf]
    split
    · simp
    · split <;> simp

def segments (path : String) : List String :=
  (segmentsOf path.toList).map String.ofList

/-- Reads a decimal numeral: ASCII digits, at least one, with an optional plus sign. -/
def readNatural (cs : List Char) : Option Nat :=
  let digits := match cs with
    | '+' :: rest => rest
    | cs => cs
  if digits ≠ [] ∧ digits.all Char.isDigit then some (Decimal.ofDigits digits) else none

/-- Reads a list index: a numeral below `2 ^ 64`. -/
def readIndex (s : String) : Option Nat :=
  (readNatural s.toList).filter (· < Nat.pow 2 64)

namespace Value

/-- The part of a value that one segment names. -/
def get? (v : Value) (segment : String) : Option Value :=
  if segment = "this" then some v
  else
    match v with
    | map entries => Table.get? entries segment
    | list items => (readIndex segment).bind (items[·]?)
    | _ => none

def follow (v : Value) : List String → Option Value
  | [] => some v
  | s :: rest => (v.get? s).bind (follow · rest)

/-- The part that a dotted path names. -/
def lookup (v : Value) (path : String) : Option Value :=
  v.follow (segments path)

end Value
end BraceTemplate
