import BraceTemplate.Grammar.Rule
import BraceTemplate.Template.Node

/-!
# Tokens

The smallest rules: fixed texts, blanks, names, paths and quoted texts. A name is not read where
the keyword `else` closes its own tag (`closesElse`), so that an `else` tag is never taken for a
variable.
-/

namespace BraceTemplate

/-- The text after the prefix `w`. -/
def stripPrefix : List Char → List Char → Option (List Char)
  | [], s => some s
  | _ :: _, [] => none
  | w :: ws, c :: s => if w = c then stripPrefix ws s else none

theorem stripPrefix_eq_some {w s rest : List Char} :
    stripPrefix w s = some rest ↔ s = w ++ rest := by
  induction w generalizing s with
  | nil => simp [stripPrefix]
  | cons c w ih =>
    cases s with
    | nil => simp [stripPrefix]
    | cons d s =>
      by_cases h : c = d
      · simp [stripPrefix, h, ih]
      · simp [stripPrefix, h, Ne.symm h]

def skipBlanks (s : List Char) : List Char := s.dropWhile isBlank

def elseWord : List Char := ['e', 'l', 's', 'e']

def Output.opening : Output → List Char
  | .escaped => ['{', '{']
  | .raw => ['{', '{', '{']

def Output.closing : Output → List Char
  | .escaped => ['}', '}']
  | .raw => ['}', '}', '}']

def isNameChar (c : Char) : Bool :=
  c.isAlphanum || c = '@' || c = '-' || c = '_' || c = '?'

def isPartialNameChar (c : Char) : Bool := isNameChar c || c = '/'

/-- Whether the text goes on with `else` and the end of a tag. -/
def closesElse (s : List Char) : Bool :=
  match stripPrefix elseWord s with
  | none => false
  | some rest =>
    let rest := skipBlanks rest
    let rest := (stripPrefix ['~'] rest).getD rest
    (stripPrefix ['}', '}'] rest).isSome

/-- Whether the text goes on with `as` and the bar before the names of a block. -/
def introducesNames (s : List Char) : Bool :=
  match stripPrefix ['a', 's'] s with
  | none => false
  | some rest => (stripPrefix ['|'] (skipBlanks rest)).isSome

namespace Grammar

def literal (w : List Char) : Rule Unit := fun s =>
  match stripPrefix w s with
  | some rest => ⟨.ok () rest, []⟩
  | none => ⟨.mismatch, []⟩

/-- A fixed text that is reported where it is missing. -/
def token (w : List Char) : Rule Unit := .expect (.token w) (literal w)

/-- The characters up to the first that fails `p`. -/
def run (p : Char → Bool) : Rule (List Char) := fun s =>
  ⟨.ok (s.takeWhile p) (s.dropWhile p), []⟩

def run1 (p : Char → Bool) : Rule (List Char) := fun s =>
  match s.takeWhile p with
  | [] => ⟨.mismatch, []⟩
  | cs => ⟨.ok cs (s.dropWhile p), []⟩

def blanks : Rule Unit := do
  let _ ← run isBlank

def space : Rule Unit := do
  let _ ← run1 isBlank

/-- Whether a trim marker stands here. -/
def tilde : Rule Bool := do
  return (← Rule.optional (literal ['~'])).isSome

def close (output : Output) : Rule Unit := token output.closing

def identifier : Rule String :=
  .expect .identifier do
    Rule.refuse closesElse
    return String.ofList (← run1 isNameChar)

def partialName : Rule String :=
  .expect .partialName do
    Rule.refuse closesElse
    return String.ofList (← run1 isPartialNameChar)

/-- A segment of a path after a dot; here the keyword `else` is a name as well. -/
def segment : Rule String :=
  identifier.orElse do
    literal elseWord
    return String.ofList elseWord

/-- A variable: names with dots in between. -/
def path : Rule String := do
  let head ← identifier
  let others ← Rule.many (do literal ['.']; segment)
  return ".".intercalate (head :: others)

def quotedBy (quote : Char) : Rule String := do
  literal [quote]
  let text ← run (· ≠ quote)
  .expect (.closingQuote quote) (literal [quote])
  return String.ofList text

def quoted : Rule String := (quotedBy '\x27').orElse (quotedBy '\x22')

end Grammar
end BraceTemplate
