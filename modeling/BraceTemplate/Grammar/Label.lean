/-!
# What a syntax error can name

A rule of the grammar that wants a certain token at a place records a miss when the token is not
there. `Furthest` keeps, of all misses, those at the furthest place: they are what the error
reports as expected.
-/

namespace BraceTemplate

inductive Label where
  | identifier
  | partialName
  /-- A fixed text. -/
  | token (text : List Char)
  /-- The name in the closing tag of the block opened as `name`. -/
  | closingTag (name : String)
  /-- The quote that ends a quoted text. -/
  | closingQuote (quote : Char)
  deriving DecidableEq, Repr

def Label.text : Label → String
  | identifier => "identifier"
  | partialName => "partial name"
  | token text => "`" ++ String.ofList text ++ "`"
  | closingTag name => "closing tag `\x7b\x7b/" ++ name ++ "\x7d\x7d`"
  | closingQuote quote => "closing `" ++ String.ofList [quote] ++ "`"

/-- The text that would have matched, where the label stands for one fixed text. -/
def Label.literal? : Label → Option (List Char)
  | identifier => none
  | partialName => none
  | token text => some text
  | closingTag name => some name.toList
  | closingQuote quote => some [quote]

/-- A wanted token that was not there, with the number of characters left in the text. -/
structure Miss where
  left : Nat
  label : Label
  deriving DecidableEq, Repr

/-- The furthest place of a miss so far, and the labels missed there, each once. -/
@[ext]
structure Furthest (α : Type) where
  offset : Nat
  expected : List α
  deriving DecidableEq, Repr

namespace Furthest

variable {α : Type}

def start : Furthest α := ⟨0, []⟩

/-- Takes account of a miss at `offset`. -/
def record [DecidableEq α] (f : Furthest α) (offset : Nat) (label : α) : Furthest α :=
  if f.offset < offset then ⟨offset, [label]⟩
  else if offset = f.offset ∧ label ∉ f.expected then ⟨offset, f.expected ++ [label]⟩
  else f

/-- Takes account of misses in the order in which they come, each with its place. -/
def recordAll [DecidableEq α] (missed : List (Nat × α)) : Furthest α :=
  missed.foldl (fun f m => f.record m.1 m.2) start

/-- The furthest place of the given misses in a text of `total` characters. -/
def ofMisses (total : Nat) (misses : List Miss) : Furthest Label :=
  recordAll (misses.map fun m => (total - m.left, m.label))

end Furthest
end BraceTemplate
