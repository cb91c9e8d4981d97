import BraceTemplate.Proofs.Grammar.Soundness
import Mathlib

/-!
# A template inside a block

Any template can be the body of a block, one level further inside, and so can it be the
alternative. The blocks in it have closing and `else` tags of their own, which are a part of how
they are written, so the body never ends at one of these. Only an opening brace at the end of the
body would run into the tag behind it.
-/

namespace BraceTemplate

/-! ## Tags without markers -/

def openTag (name : String) : String := "\x7b\x7b#" ++ name ++ "\x7d\x7d"

def elseTag : String := "\x7b\x7belse\x7d\x7d"

def closeTag (name : String) : String := "\x7b\x7b/" ++ name ++ "\x7d\x7d"

theorem toList_openTag (name : String) :
    (openTag name).toList =
      Output.escaped.opening ++ (['#'] ++ (name.toList ++ Output.escaped.closing)) := by
  simp [openTag, Output.opening, Output.closing]

theorem toList_elseTag :
    elseTag.toList = Output.escaped.opening ++ (elseWord ++ Output.escaped.closing) := rfl

theorem toList_closeTag (name : String) : (closeTag name).toList = closingText name .none := by
  simp [closeTag, closingText, Trim.none, Output.opening, Output.closing]

/-! ## Bodies -/

variable {limit : Nat} {name text body : String} {b : Block} {o : Option Block}

/-- The text can stand before a tag: it is a template, and does not end in an opening brace. -/
structure Enclosable (limit : Nat) (text : String) (b : Block) : Prop where
  reads : parseWithin limit text = .ok b
  last : text.toList.getLast? ≠ some '{'

theorem Enclosable.bodyText (h : Enclosable limit text b) :
    BodyText (limit + 1) b text.toList :=
  ⟨parseChars_eq_ok_iff.1 h.reads, h.last⟩

theorem enclosable_empty : Enclosable limit "" [] :=
  ⟨parseChars_of_written .nil, by decide⟩

theorem enclosable_content (h : IsContent text) (hlast : text.toList.getLast? ≠ some '{') :
    Enclosable limit text [.content text] :=
  ⟨parseChars_of_written (.content h), hlast⟩

/-- What stands between the body of a block and its closing tag: nothing, or an alternative. -/
inductive Alternative (limit : Nat) : Option Block → String → Prop
  | none : Alternative limit none ""
  | some {text : String} {b : Block} :
      Enclosable limit text b → Alternative limit (some b) (elseTag ++ text)

theorem Alternative.otherwiseText (h : Alternative limit o text) :
    OtherwiseText (BodyText (limit + 1)) o .none text.toList := by
  cases h with
  | none => exact .none
  | @some text b hb =>
    have hsome : OtherwiseText (BodyText (limit + 1)) (Option.some b) ⟨false, false⟩ _ :=
      .some blanks_nil blanks_nil hb.bodyText
    rw [String.toList_append, toList_elseTag]
    simpa [Trim.none] using hsome

/-! ## Blocks -/

/-- A body between the tags of a block, with or without an alternative, is one block. -/
theorem parseWithin_enclosed {other : String} (hname : IsName name) (helse : name ≠ "else")
    (hbody : Enclosable limit body b) (hother : Alternative limit o other) :
    parseWithin (limit + 1) (openTag name ++ body ++ other ++ closeTag name) =
      .ok [.helper .raw name [] (some b) o .none (some .none)] := by
  have htag : TagText (InnerText (limit + 1)) (BodyText (limit + 1))
      (.helper .raw name [] (some b) o .none (some ⟨⟨false, false⟩, .none, .none⟩)) _ :=
    .block hname (fun _ => helse) nofun .nil blanks_nil hbody.bodyText hother.otherwiseText
  refine parseWithin_of_tagText htag ?_
  simp [toList_openTag, toList_closeTag]

/-- Any template that does not end in an opening brace, between the tags of a block, is the body of
that block, and another one behind an `else` tag is the alternative. -/
theorem parseWithin_wrapped (hname : IsName name) (helse : name ≠ "else")
    (hbody : Enclosable limit body b) :
    parseWithin (limit + 1) (openTag name ++ body ++ closeTag name) =
      .ok [.helper .raw name [] (some b) none .none (some .none)] ∧
    ∀ other e, Enclosable limit other e →
      parseWithin (limit + 1) (openTag name ++ body ++ elseTag ++ other ++ closeTag name) =
        .ok [.helper .raw name [] (some b) (some e) .none (some .none)] := by
  constructor
  · have hnone := parseWithin_enclosed hname helse hbody .none
    rwa [String.append_empty] at hnone
  · intro other e hother
    have hsome := parseWithin_enclosed hname helse hbody (.some hother)
    rwa [← String.append_assoc] at hsome

def choice : Block :=
  [.content "a",
    .helper .raw "if" [] (some [.content "b"]) (some [.content "c"]) .none (some .none)]

def choiceText : String := "a\x7b\x7b#if\x7d\x7db\x7b\x7belse\x7d\x7dc\x7b\x7b/if\x7d\x7d"

theorem enclosable_choiceText : Enclosable 1 choiceText choice := ⟨by cbv, by decide⟩

theorem enclosable_brace : Enclosable limit "\x7d" [.content "\x7d"] :=
  enclosable_content ⟨by decide, by decide⟩ (by decide)

/-- A block with an alternative inside a block of the same name with one. -/
theorem parseWithin_wrapped_choice :
    IsName "if" ∧ "if" ≠ "else" ∧ Enclosable 1 choiceText choice ∧
    parseWithin 2 (openTag "if" ++ choiceText ++ elseTag ++ "\x7d" ++ closeTag "if") =
      .ok [.helper .raw "if" [] (some choice) (some [.content "\x7d"]) .none (some .none)] :=
  ⟨by decide, by decide, enclosable_choiceText,
    (parseWithin_wrapped (by decide) (by decide) enclosable_choiceText).2 _ _ enclosable_brace⟩

end BraceTemplate
