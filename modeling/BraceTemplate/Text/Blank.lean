/-!
# Blank characters

Two classes of blank are in use. Between the parts of a tag only the five ASCII blanks count
(`isBlank`); trimming a rendered value strips every character with the Unicode property
White_Space (`isWhiteSpace`), from either end of a text (`trimStart`, `trimEnd`).
-/

namespace BraceTemplate

/-- The blanks that may separate the parts of a tag: space, tab, line feed, form feed and
carriage return. -/
def isBlank (c : Char) : Bool :=
  c = ' ' || c = '\t' || c = '\n' || c = '\x0c' || c = '\r'

/-- The code points with the Unicode property White_Space, as ranges with both ends included. -/
def whiteSpaceRanges : List (Nat × Nat) :=
  [(0x09, 0x0D), (0x20, 0x20), (0x85, 0x85), (0xA0, 0xA0), (0x1680, 0x1680), (0x2000, 0x200A),
   (0x2028, 0x2029), (0x202F, 0x202F), (0x205F, 0x205F), (0x3000, 0x3000)]

def isWhiteSpace (c : Char) : Bool :=
  whiteSpaceRanges.any fun r => r.1 ≤ c.toNat && c.toNat ≤ r.2

def trimStart (s : String) : String :=
  String.ofList (s.toList.dropWhile isWhiteSpace)

def trimEnd (s : String) : String :=
  String.ofList (s.toList.reverse.dropWhile isWhiteSpace).reverse

end BraceTemplate
