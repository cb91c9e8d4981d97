import BraceTemplate.Text.Blank

/-!
# Trim markers

A tilde beside a brace of a tag asks to strip white space on that side of the rendered value.
-/

namespace BraceTemplate

/-- The trim markers of one tag. -/
structure Trim where
  left : Bool
  right : Bool
  deriving DecidableEq, Repr

namespace Trim

def none : Trim := ⟨false, false⟩

instance : Inhabited Trim := ⟨none⟩

/-- Strips the marked sides of a rendered value. -/
def apply (t : Trim) (s : String) : String :=
  let s := if t.left then trimStart s else s
  if t.right then trimEnd s else s

@[simp] theorem apply_none (s : String) : none.apply s = s := rfl

end Trim

/-- The markers on the tags of a block. They are kept for helpers to see; rendering strips no
block. -/
structure TrimMarks where
  opening : Trim
  otherwise : Trim
  closing : Trim
  deriving DecidableEq, Repr

def TrimMarks.none : TrimMarks := ⟨.none, .none, .none⟩

instance : Inhabited TrimMarks := ⟨.none⟩

end BraceTemplate
