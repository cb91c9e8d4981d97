import BraceTemplate.Grammar.ParseError

/-!
# Why a rendering fails
-/

namespace BraceTemplate

inductive RenderError where
  /-- No helper `name` is registered, and none that stands in for missing ones. -/
  | noHelper (name : String)
  | noPartial (name : String)
  /-- Blocks are rendered inside each other deeper than `limit` levels. -/
  | tooDeep (limit : Nat)
  /-- The helper `name` gave up. -/
  | gaveUp (name : String) (reason : String)
  /-- A text that was to be rendered is no template. -/
  | noTemplate (error : ParseError)
  deriving DecidableEq, Repr

def RenderError.message : RenderError → String
  | noHelper name =>
    "helper '" ++ name ++ "' is not registered and no 'helperMissing' helper is available"
  | noPartial name => "partial not found: '" ++ name ++ "'"
  | tooDeep limit => "maximum render depth of " ++ Nat.repr limit ++ " exceeded"
  | gaveUp name reason => "helper '" ++ name ++ "' failed: " ++ reason
  | noTemplate error => error.message

end BraceTemplate
