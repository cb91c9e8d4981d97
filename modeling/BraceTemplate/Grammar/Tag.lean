import BraceTemplate.Grammar.Token

/-!
# Tags

The rules for text and for the seven kinds of tag. Two things can nest: a block in the body of
a block, and a subexpression in the parameters of another. The rules take both as arguments,
`inner` for the parameters inside a subexpression and `body` for the nodes inside a block, and
`innerParams` and `blockBody` tie the knot with one level less to spend.
-/

namespace BraceTemplate.Grammar

/-! ## Text -/

def isBrace (c : Char) : Bool := c = '{' || c = '}'

/-- A run of text without braces, an opening brace that no other one follows, or a closing brace. -/
def textPiece : Rule (List Char) :=
  .firstOf [
    run1 fun c => !isBrace c,
    do
      literal ['{']
      Rule.refuse fun s => (stripPrefix ['{'] s).isSome
      return ['{'],
    do
      literal ['}']
      return ['}']]

/-- Text up to the next tag. A single brace is text, and so is one at the very end. -/
def content : Rule Node := do
  let pieces ← Rule.many1 textPiece
  return .content (String.ofList pieces.flatten)

/-! ## Parameters -/

def subexpression (inner : Rule (List Param)) : Rule Param := do
  literal ['(']
  blanks
  let name ← identifier
  let params ← inner
  blanks
  token [')']
  return .call name params

/-- A variable, a quoted text or a subexpression; never the word `as` before a bar. -/
def parameter (inner : Rule (List Param)) : Rule Param := do
  Rule.refuse introducesNames
  Rule.firstOf [
    do return .path (← path),
    do return .literal (← quoted),
    subexpression inner]

def parameters (inner : Rule (List Param)) : Rule (List Param) :=
  .separated space (parameter inner)

/-- Parameters after what `before` reads, or none. -/
def parametersAfter (before : Rule Unit) (inner : Rule (List Param)) : Rule (List Param) := do
  return (← Rule.optional (do before; parameters inner)).getD []

/-- The parameters inside a subexpression, where `budget` levels may still open. -/
def innerParams : Nat → Rule (List Param)
  | 0 => fun s => Rule.tooDeep s
  | budget + 1 => fun s => parametersAfter blanks (innerParams budget) s

def argument (inner : Rule (List Param)) : Rule Argument := do
  let key ← identifier
  blanks
  token ['=']
  blanks
  return .mk key (← parameter inner)

def arguments (inner : Rule (List Param)) : Rule (List Argument) :=
  .separated space (argument inner)

/-! ## Inline tags -/

def reference (output : Output) : Rule Node := do
  literal output.opening
  let left ← tilde
  blanks
  let path ← path
  blanks
  let right ← tilde
  close output
  return .reference output path ⟨left, right⟩

def helper (inner : Rule (List Param)) (output : Output) : Rule Node := do
  literal output.opening
  let left ← tilde
  blanks
  let name ← identifier
  let params ← parametersAfter blanks inner
  blanks
  let right ← tilde
  close output
  return .helper output name params none none ⟨left, right⟩ none

def partialTag (inner : Rule (List Param)) : Rule Node := do
  literal Output.escaped.opening
  let left ← tilde
  token ['>']
  blanks
  let name ← partialName
  blanks
  let args := (← Rule.optional (arguments inner)).getD []
  blanks
  let right ← tilde
  close .escaped
  if args.isEmpty then return .plainPartial name [] ⟨left, right⟩
  else return .boundPartial name args ⟨left, right⟩

/-! ## Blocks -/

/-- The tag that closes the block opened as `name`. -/
def closingTag (name : String) : Rule Trim := do
  literal Output.escaped.opening
  let left ← tilde
  token ['/']
  .expect (.closingTag name) (literal name.toList)
  let right ← tilde
  close .escaped
  return ⟨left, right⟩

/-- The `else` tag of a block, with markers, and the alternative after it. -/
def markedElse (body : Rule Block) : Rule (Trim × Block) := do
  literal Output.escaped.opening
  let left ← tilde
  blanks
  token elseWord
  blanks
  let right ← tilde
  close .escaped
  return (⟨left, right⟩, ← body)

/-- The `else` tag of a binder, which has no markers, and the alternative after it. -/
def plainElse (body : Rule Block) : Rule Block := do
  literal Output.escaped.opening
  blanks
  token elseWord
  blanks
  close .escaped
  body

def blockTag (inner : Rule (List Param)) (body : Rule Block) : Rule Node := do
  literal Output.escaped.opening
  let left ← tilde
  token ['#']
  let name ← identifier
  let params ← parametersAfter space inner
  blanks
  let right ← tilde
  close .escaped
  let first ← body
  let second ← Rule.optional (markedElse body)
  let closing ← closingTag name
  return .helper .raw name params (some first) (second.map (·.2)) .none
    (some ⟨⟨left, right⟩, (second.map (·.1)).getD .none, closing⟩)

def binderTag (inner : Rule (List Param)) (body : Rule Block) : Rule Node := do
  literal Output.escaped.opening
  let left ← tilde
  token ['#']
  let name ← identifier
  space
  let params ← parameters inner
  space
  token ['a', 's']
  blanks
  token ['|']
  blanks
  let names ← Rule.separated space identifier
  blanks
  token ['|']
  blanks
  let right ← tilde
  close .escaped
  let first ← body
  let second ← Rule.optional (plainElse body)
  let closing ← closingTag name
  return .binder name params names first second ⟨⟨left, right⟩, .none, closing⟩

/-! ## Nodes -/

/-- A node. The first rule that matches counts, so their order matters. -/
def node (inner : Rule (List Param)) (body : Rule Block) : Rule Node :=
  .firstOf [
    content,
    reference .escaped,
    reference .raw,
    helper inner .escaped,
    helper inner .raw,
    partialTag inner,
    blockTag inner body,
    binderTag inner body]

/-- The body of a block, where `budget` levels may still open, its own included. -/
def blockBody : Nat → Rule Block
  | 0 => fun s => Rule.tooDeep s
  | budget + 1 => fun s => Rule.many (node (innerParams budget) (blockBody budget)) s

/-- The nodes of a template that may open `budget` levels. -/
def items (budget : Nat) : Rule Block :=
  .many (node (innerParams budget) (blockBody budget))

end BraceTemplate.Grammar
