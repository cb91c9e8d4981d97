/-!
# Escaping for HTML

Seven characters mean something in HTML text or in an attribute value. Each is written as an
entity, every other character as itself.
-/

namespace BraceTemplate.Html

def escapeChar (c : Char) : List Char :=
  match c with
  | '&' => "&amp;".toList
  | '<' => "&lt;".toList
  | '>' => "&gt;".toList
  | '\x22' => "&quot;".toList
  | '\x27' => "&#x27;".toList
  | '\x60' => "&#x60;".toList
  | '=' => "&#x3D;".toList
  | c => [c]

/-- The text with its special characters written as entities. -/
def escape (s : String) : String :=
  String.ofList (s.toList.flatMap escapeChar)

end BraceTemplate.Html
