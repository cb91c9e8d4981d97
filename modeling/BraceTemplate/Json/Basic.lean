import BraceTemplate.Decimal.Numeral

/-!
# JSON texts

A `Json` is a JSON text as a tree. Numbers stay exact, with the form they were written in, and
the members of an object keep their order. `Json.read` refuses what the grammar of JSON does not
allow, escapes of half a surrogate pair, and nesting beyond a limit.
-/

namespace BraceTemplate

inductive Json where
  | null
  | bool (b : Bool)
  /-- A number; `whole` tells whether it was written without a fraction and an exponent. -/
  | number (negative whole : Bool) (magnitude : Decimal.Numeral)
  | string (s : String)
  | array (items : List Json)
  | object (members : List (String × Json))

instance : Inhabited Json := ⟨.null⟩

namespace Json

open Decimal (ofDigits)

def member? (name : String) : Json → Option Json
  | object members => (members.find? (·.1 == name)).map (·.2)
  | _ => none

/-! ## Numbers -/

/-- The digits at the start of a text, at least one, and the text after them. -/
def readDigits (s : List Char) : Option (List Char × List Char) :=
  match s.takeWhile Char.isDigit with
  | [] => none
  | ds => some (ds, s.dropWhile Char.isDigit)

def readFraction (s : List Char) : Option (List Char × List Char) :=
  match s with
  | '.' :: rest => readDigits rest
  | s => some ([], s)

def readExponent (s : List Char) : Option (Option Int × List Char) :=
  match s with
  | [] => some (none, [])
  | c :: rest =>
    if c = 'e' || c = 'E' then
      match rest with
      | '+' :: rest => (readDigits rest).map fun (ds, r) => (some (ofDigits ds : Int), r)
      | '-' :: rest => (readDigits rest).map fun (ds, r) => (some (-(ofDigits ds : Int)), r)
      | rest => (readDigits rest).map fun (ds, r) => (some (ofDigits ds : Int), r)
    else some (none, s)

def dropFinalZeros (digits : List Char) : List Char :=
  (digits.reverse.dropWhile (· = '0')).reverse

/-- A number without its sign. A leading zero stands alone, and zeros at the end of the fraction
are no digits of the number. -/
def readMagnitude (negative : Bool) (s : List Char) : Option (Json × List Char) := do
  let (whole, s) ← readDigits s
  if whole.head? = some '0' && whole ≠ ['0'] then none
  else
    let (fraction, s') ← readFraction s
    let (exponent, s'') ← readExponent s'
    let places := dropFinalZeros fraction
    let magnitude := ⟨ofDigits (whole ++ places), exponent.getD 0 - places.length⟩
    return (.number negative (fraction.isEmpty && exponent.isNone) magnitude, s'')

/-! ## Strings -/

/-- An item of a string: a character, or a UTF-16 unit written as an escape. -/
inductive Piece where
  | char (c : Char)
  | unit (n : Nat)

def hexDigit (c : Char) : Option Nat :=
  if '0' ≤ c ∧ c ≤ '9' then some (c.toNat - '0'.toNat)
  else if 'a' ≤ c ∧ c ≤ 'f' then some (c.toNat - 'a'.toNat + 10)
  else if 'A' ≤ c ∧ c ≤ 'F' then some (c.toNat - 'A'.toNat + 10)
  else none

def hexUnit (a b c d : Char) : Option Nat := do
  return (((← hexDigit a) * 16 + (← hexDigit b)) * 16 + (← hexDigit c)) * 16 + (← hexDigit d)

def escapedChar (c : Char) : Option Char :=
  match c with
  | '\x22' => some '\x22'
  | '\\' => some '\\'
  | '/' => some '/'
  | 'b' => some '\x08'
  | 'f' => some '\x0c'
  | 'n' => some '\n'
  | 'r' => some '\r'
  | 't' => some '\t'
  | _ => none

/-- The items of a string up to its closing quote, and the text after that. -/
def readPieces : List Char → Option (List Piece × List Char)
  | [] => none
  | '\x22' :: rest => some ([], rest)
  | '\\' :: 'u' :: a :: b :: c :: d :: rest => do
    let n ← hexUnit a b c d
    let (ps, r) ← readPieces rest
    return (.unit n :: ps, r)
  | '\\' :: c :: rest => do
    let c ← escapedChar c
    let (ps, r) ← readPieces rest
    return (.char c :: ps, r)
  | c :: rest =>
    if c.toNat < 0x20 || c = '\\' then none
    else do
      let (ps, r) ← readPieces rest
      return (.char c :: ps, r)

/-- Joins surrogate pairs; a surrogate without its partner is refused. -/
def joinPieces : List Piece → Option (List Char)
  | [] => some []
  | .char c :: rest => (joinPieces rest).map (c :: ·)
  | .unit hi :: .unit lo :: rest =>
    if 0xD800 ≤ hi ∧ hi < 0xDC00 then
      if 0xDC00 ≤ lo ∧ lo < 0xE000 then
        (joinPieces rest).map (Char.ofNat (0x10000 + (hi - 0xD800) * 0x400 + (lo - 0xDC00)) :: ·)
      else none
    else if 0xDC00 ≤ hi ∧ hi < 0xE000 then none
    else (joinPieces (.unit lo :: rest)).map (Char.ofNat hi :: ·)
  | .unit n :: rest =>
    if 0xD800 ≤ n ∧ n < 0xE000 then none else (joinPieces rest).map (Char.ofNat n :: ·)

def readString (s : List Char) : Option (String × List Char) := do
  let (ps, rest) ← readPieces s
  return (String.ofList (← joinPieces ps), rest)

/-! ## Trees -/

/-- The text after white space, of which JSON knows four characters. -/
def skipSpace (s : List Char) : List Char :=
  s.dropWhile fun c => c = ' ' || c = '\t' || c = '\n' || c = '\r'

def dropWord (w s : List Char) : Option (List Char) :=
  if w.isPrefixOf s then some (s.drop w.length) else none

mutual

/-- A value with `depth` levels of arrays and objects at most; `fuel` bounds the calls. -/
def readValue : (fuel depth : Nat) → List Char → Option (Json × List Char)
  | 0, _, _ => none
  | fuel + 1, depth, s =>
    match skipSpace s with
    | [] => none
    | c :: rest =>
      if c = '\x22' then (readString rest).map fun (t, r) => (.string t, r)
      else if c = '-' then readMagnitude true rest
      else if c.isDigit then readMagnitude false (c :: rest)
      else if c = '[' then
        match depth, skipSpace rest with
        | 0, _ => none
        | _ + 1, ']' :: r => some (.array [], r)
        | depth + 1, r => (readItems fuel depth r).map fun (js, r) => (.array js, r)
      else if c = '{' then
        match depth, skipSpace rest with
        | 0, _ => none
        | _ + 1, '}' :: r => some (.object [], r)
        | depth + 1, r => (readMembers fuel depth r).map fun (ms, r) => (.object ms, r)
      else if c = 'n' then (dropWord ['u', 'l', 'l'] rest).map fun r => (.null, r)
      else if c = 't' then (dropWord ['r', 'u', 'e'] rest).map fun r => (.bool true, r)
      else if c = 'f' then (dropWord ['a', 'l', 's', 'e'] rest).map fun r => (.bool false, r)
      else none

def readItems : (fuel depth : Nat) → List Char → Option (List Json × List Char)
  | 0, _, _ => none
  | fuel + 1, depth, s => do
    let (j, s) ← readValue fuel depth s
    match skipSpace s with
    | ',' :: rest =>
      let (js, r) ← readItems fuel depth rest
      return (j :: js, r)
    | ']' :: rest => return ([j], rest)
    | _ => none

def readMembers : (fuel depth : Nat) → List Char → Option (List (String × Json) × List Char)
  | 0, _, _ => none
  | fuel + 1, depth, s =>
    match skipSpace s with
    | '\x22' :: s => do
      let (name, s) ← readString s
      match skipSpace s with
      | ':' :: s =>
        let (j, s) ← readValue fuel depth s
        match skipSpace s with
        | ',' :: rest =>
          let (ms, r) ← readMembers fuel depth rest
          return ((name, j) :: ms, r)
        | '}' :: rest => return ([(name, j)], rest)
        | _ => none
      | _ => none
    | _ => none

end

/-- Reads a text as JSON with at most `depth` levels of arrays and objects. Each character is
paid for by two calls at most. -/
def read (depth : Nat) (text : List Char) : Option Json := do
  let (j, rest) ← readValue (2 * text.length + 2) depth text
  if skipSpace rest = [] then some j else none

end Json
end BraceTemplate
