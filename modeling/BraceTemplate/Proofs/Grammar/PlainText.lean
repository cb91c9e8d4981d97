import BraceTemplate.Proofs.Grammar.Shape

/-!
# Text without a tag

Two opening braces in a row are all that ends text. A text without them is one node, and the only
text of that node: single braces, closing braces and a brace at the very end are characters like any
other, and no tag is ever read as text.
-/

namespace BraceTemplate

variable {inner : List Param → List Char → Prop} {body : Block → List Char → Prop}
variable {limit : Nat} {w : List Char}

/-- A text is content if there is something in it and no two opening braces in a row. -/
theorem isContent_iff {t : String} : IsContent t ↔ t ≠ "" ∧ ¬ ['{', '{'] <:+: t.toList := by
  have hempty : t.toList ≠ [] ↔ t ≠ "" := by
    rw [Ne, ← String.toList_empty, String.toList_inj]
  rw [IsContent, hempty, beforeTag_eq_self_iff]

/-- The only written form of a node that is text is that text. -/
theorem BlockText.content_iff {t : String} :
    BlockText (TagText inner body) [.content t] w ↔ IsContent t ∧ w = t.toList := by
  constructor
  · intro h
    cases h with
    | content ht => exact ⟨ht, rfl⟩
    | tag hw _ => exact (hw.ne_content t rfl).elim
  · rintro ⟨ht, rfl⟩
    exact .content ht

/-- No node at all is written by the empty text only. -/
theorem BlockText.nil_iff : BlockText (TagText inner body) [] w ↔ w = [] := by
  constructor
  · intro h
    cases h
    rfl
  · rintro rfl
    exact .nil

/-- A text is read as a single node of text exactly if there is something in it and no two opening
braces in a row, and then the node has the whole text. Nothing is read from the empty text alone. -/
theorem parseWithin_eq_content_iff (limit : Nat) (text s : String) :
    (parseWithin limit text = .ok [.content s] ↔
      text ≠ "" ∧ ¬ ['{', '{'] <:+: text.toList ∧ s = text) ∧
    (parseWithin limit text = .ok [] ↔ text = "") := by
  constructor
  · rw [parseWithin, parseChars_eq_ok_iff, Written, BlockText.content_iff, isContent_iff,
      String.toList_inj]
    constructor
    · rintro ⟨⟨hne, hbraces⟩, rfl⟩
      exact ⟨hne, hbraces, rfl⟩
    · rintro ⟨hne, hbraces, rfl⟩
      exact ⟨⟨hne, hbraces⟩, rfl⟩
  · rw [parseWithin, parseChars_eq_ok_iff, Written, BlockText.nil_iff, ← String.toList_empty,
      String.toList_inj]

/-- Single braces, closing braces and a brace at the end are text. -/
example : parseWithin 0 "\x7d\x7d \x7b é\x7b" = .ok [.content "\x7d\x7d \x7b é\x7b"] := by
  cbv

end BraceTemplate
