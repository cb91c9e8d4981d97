/-!
# Places in a text

A place is given in two ways: as a byte offset into the UTF-8 form of the text, and as a line and
a column. Lines end at line feeds only, columns count characters, and both start at one.
-/

namespace BraceTemplate

structure Position where
  /-- The number of UTF-8 bytes before the place. -/
  offset : Nat
  line : Nat
  column : Nat
  deriving DecidableEq, Repr

namespace Position

def byteLength : List Char → Nat
  | [] => 0
  | c :: cs => c.utf8Size + byteLength cs

theorem byteLength_append (a b : List Char) :
    byteLength (a ++ b) = byteLength a + byteLength b := by
  induction a with
  | nil => simp [byteLength]
  | cons c a ih => simp [byteLength, ih, Nat.add_assoc]

/-- The place reached after reading `cs` from the start of a text. -/
def after (cs : List Char) : Position where
  offset := byteLength cs
  line := cs.count '\n' + 1
  column := (cs.reverse.takeWhile (· ≠ '\n')).length + 1

end Position
end BraceTemplate
