import BraceTemplate.Grammar.Tag
import BraceTemplate.Grammar.ParseError

/-!
# Reading a template

`parseWithin` reads a whole text as a template whose nesting has a limit. A text that is no
template is refused at the furthest place where a token was missed.
-/

namespace BraceTemplate

/-- The nesting that templates may have unless another limit is given. -/
def defaultDepth : Nat := 64

/-- The place in `text` with `left` characters to come. -/
def positionLeft (text : List Char) (left : Nat) : Position :=
  .after (text.take (text.length - left))

def stoppedBefore (text rest : List Char) (misses : List Miss) : ParseError :=
  let furthest := Furthest.ofMisses text.length misses
  if text.length - rest.length ≤ furthest.offset ∧ furthest.expected ≠ [] then
    .unexpected (.after (text.take furthest.offset)) (furthest.expected.map Label.text)
  else
    .unexpected (positionLeft text rest.length) ["template content"]

def parseChars (limit : Nat) (text : List Char) : Except ParseError Block :=
  match Grammar.items limit text with
  | ⟨.ok block [], _⟩ => .ok block
  | ⟨.ok _ rest, misses⟩ => .error (stoppedBefore text rest misses)
  | ⟨.mismatch, misses⟩ => .error (stoppedBefore text text misses)
  | ⟨.tooDeep left, _⟩ => .error (.tooDeep (positionLeft text left) limit)

/-- Reads a template in which blocks and subexpressions nest at most `limit` levels deep. -/
def parseWithin (limit : Nat) (text : String) : Except ParseError Block :=
  parseChars limit text.toList

def parse (text : String) : Except ParseError Block :=
  parseWithin defaultDepth text

end BraceTemplate
