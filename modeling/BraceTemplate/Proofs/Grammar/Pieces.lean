import BraceTemplate.Proofs.Grammar.Soundness
import Mathlib

/-!
# The text of each node

A template that is read has its text cut into consecutive pieces, one a node, and each piece is a
template of that node alone. So no character is dropped, and none is read as part of a neighbour: a
tag says where it ends without a look at what follows, and text runs up to a tag.
-/

namespace BraceTemplate

/-- The piece of text is a template of the node alone, and where the node is text, that text. -/
structure ReadAlone (limit : Nat) (n : Node) (p : String) : Prop where
  ne_empty : p ≠ ""
  reads : parseWithin limit p = .ok [n]
  content : ∀ t, n = .content t → p = t

variable {limit : Nat} {w : List Char}

theorem IsContent.readAlone {t : String} (ht : IsContent t) : ReadAlone limit (.content t) t where
  ne_empty := by
    rintro rfl
    exact ht.1 rfl
  reads := parseChars_eq_ok_iff.2 (.content ht)
  content := by
    rintro _ ⟨⟩
    rfl

theorem TagText.readAlone {n : Node} (h : TagText (InnerText limit) (BodyText limit) n w) :
    ReadAlone limit n (String.ofList w) where
  ne_empty := by
    obtain ⟨u, rfl⟩ := opening_of_tagText h
    simp [Output.opening]
  reads := parseWithin_of_tagText h String.toList_ofList
  content t hn := by
    subst hn
    cases h

/-- Each written form of a block is cut into pieces, one for each of its nodes. -/
theorem Written.pieces {b : Block} (h : Written limit b w) :
    ∃ ps : List String, (String.join ps).toList = w ∧ List.Forall₂ (ReadAlone limit) b ps := by
  induction h with
  | nil => exact ⟨[], rfl, .nil⟩
  | @content t ht => exact ⟨[t], by simp, .cons ht.readAlone .nil⟩
  | @contentTag t n b w v ht _ hw _ ih =>
    obtain ⟨ps, hps, hpieces⟩ := ih
    refine ⟨t :: String.ofList w :: ps, ?_, .cons ht.readAlone (.cons ?_ hpieces)⟩
    · simp [← hps]
    · exact TagText.readAlone hw
  | @tag n b w v hw _ ih =>
    obtain ⟨ps, hps, hpieces⟩ := ih
    exact ⟨String.ofList w :: ps, by simp [← hps], .cons (TagText.readAlone hw) hpieces⟩

/-- The text of a template is cut into pieces, each of which is read as one of its nodes. -/
theorem parseWithin_pieces {text : String} {b : Block} (h : parseWithin limit text = .ok b) :
    ∃ ps : List String, String.join ps = text ∧ List.Forall₂ (ReadAlone limit) b ps := by
  obtain ⟨ps, hps, hpieces⟩ := Written.pieces (parseChars_eq_ok_iff.1 h)
  exact ⟨ps, String.ext hps, hpieces⟩

def piecedText : String :=
  "a \x7d\x7b\x7bb\x7d\x7d\x7b\x7b#c 'd\x7d\x7d'\x7d\x7de" ++
    "\x7b\x7b else \x7d\x7d \x7b\x7b/c\x7d\x7d f \x7b"

theorem parseWithin_pieces_block :
    ∃ b ps, parseWithin 1 piecedText = .ok b ∧ b.length = 4 ∧ String.join ps = piecedText ∧
      List.Forall₂ (ReadAlone 1) b ps := by
  have h : parseWithin 1 piecedText = .ok [.content "a \x7d", .reference .escaped "b" .none,
      .helper .raw "c" [.literal "d\x7d\x7d"] (some [.content "e"]) (some [.content " "]) .none
        (some .none), .content " f \x7b"] := by cbv
  obtain ⟨ps, hps, hpieces⟩ := parseWithin_pieces h
  exact ⟨_, ps, h, rfl, hps, hpieces⟩

end BraceTemplate
