import BraceTemplate.Value.Basic

/-!
# Values from host data

How the data of a host program becomes template data. Integers up to 64 bits become whole
numbers; an unsigned 64-bit integer keeps its bits, so the upper half of its range turns negative.
-/

namespace BraceTemplate.Value

def ofBool (b : Bool) : Value := bool b

def ofInt32 (n : Int32) : Value := number n.toInt64

def ofInt64 (n : Int64) : Value := number n

def ofUInt32 (n : UInt32) : Value := number n.toUInt64.toInt64

/-- An unsigned 64-bit integer, by its bits. -/
def ofUInt64 (n : UInt64) : Value := number n.toInt64

def ofFloat (x : Float) : Value := float x

def ofString (s : String) : Value := string s

def ofList {α : Type} (f : α → Value) (items : List α) : Value := list (items.map f)

/-- An absent datum is null. -/
def ofOption {α : Type} (f : α → Value) : Option α → Value
  | none => null
  | some a => f a

/-- A map of the given entries, of which the last one for a key counts. -/
def ofEntries (entries : List (String × Value)) : Value := map (Table.ofList entries)

end BraceTemplate.Value
