import BraceTemplate.Text.Position

/-!
# Why a text is no template
-/

namespace BraceTemplate

inductive ParseError where
  /-- No rule matches; `expected` words the tokens that were missed at the furthest place. -/
  | unexpected (position : Position) (expected : List String)
  /-- Blocks or subexpressions nest deeper than `limit` levels. -/
  | tooDeep (position : Position) (limit : Nat)
  deriving DecidableEq, Repr

namespace ParseError

def position : ParseError → Position
  | unexpected p _ => p
  | tooDeep p _ => p

/-- The wording of the tokens that could have stood there. -/
def expected : ParseError → List String
  | unexpected _ es => es
  | tooDeep _ _ => []

def place (p : Position) : String :=
  Nat.repr p.line ++ ":" ++ Nat.repr p.column

def message : ParseError → String
  | unexpected p es => "syntax error at " ++ place p ++ ": expected " ++ " or ".intercalate es
  | tooDeep p limit => "nesting deeper than " ++ Nat.repr limit ++ " levels at " ++ place p

end ParseError
end BraceTemplate
