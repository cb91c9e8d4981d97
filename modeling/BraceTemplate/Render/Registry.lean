import BraceTemplate.Render.Script
import BraceTemplate.Text.Html

/-!
# What a host registers

A `Registry` names the helpers, binders and partials that templates may call, in three separate
name spaces, and holds the escaper for tags with two braces.
-/

namespace BraceTemplate

/-- A named piece of template: compiled, or code of the host. -/
inductive Partial where
  | template (root : Block)
  | script (code : Script String)

/-- The helpers, binders and partials that templates may call, and the escaper. -/
structure Registry where
  helpers : Table Helper := []
  binders : Table Binder := []
  partials : Table Partial := []
  escape : String → String := Html.escape

namespace Registry

/-- The name of the helper that stands in for missing ones. -/
def fallback : String := "helperMissing"

/-- Registers a helper, in place of one of the same name. -/
def addHelper (reg : Registry) (name : String) (h : Helper) : Registry :=
  { reg with helpers := Table.insert reg.helpers name h }

def addBinder (reg : Registry) (name : String) (h : Binder) : Registry :=
  { reg with binders := Table.insert reg.binders name h }

def addPartial (reg : Registry) (name : String) (p : Partial) : Registry :=
  { reg with partials := Table.insert reg.partials name p }

def addPartialText (reg : Registry) (name : String) (text : String) :
    Except ParseError Registry :=
  (parse text).map fun root => reg.addPartial name (.template root)

def emit (reg : Registry) : Output → String → String
  | .escaped, s => reg.escape s
  | .raw, s => s

end Registry
end BraceTemplate
