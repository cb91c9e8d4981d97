import BraceTemplate.Template.Trim
import BraceTemplate.Text.Html
import Mathlib.Data.List.DropRight

/-!
# Written characters

A character that is written for HTML becomes an entity or stays as it is. No entity holds any
character that means something in HTML but the ampersand it starts with, and none starts or ends
with white space. So trimming before and after writing strip the same characters, and replacing
entities from left to right gives the text back (`Html.escape_reversible`).
-/

namespace BraceTemplate

/-- An item of what is written for a list is written for one item of it. -/
theorem exists_of_flatMap_eq {α β : Type} {f : α → List β} {x : β} {l : List α}
    {before after : List β} (h : l.flatMap f = before ++ x :: after) :
    ∃ l₁ a l₂ u v, l = l₁ ++ a :: l₂ ∧ f a = u ++ x :: v ∧ before = l₁.flatMap f ++ u ∧
      after = v ++ l₂.flatMap f := by
  induction l generalizing before with
  | nil => simp at h
  | cons b l ih =>
    have hlater : ∀ {w}, l.flatMap f = w ++ x :: after → before = f b ++ w →
        ∃ l₁ a l₂ u v, b :: l = l₁ ++ a :: l₂ ∧ f a = u ++ x :: v ∧ before = l₁.flatMap f ++ u ∧
          after = v ++ l₂.flatMap f := by
      rintro w hw rfl
      obtain ⟨l₁, a, l₂, u, v, rfl, ha, rfl, hafter⟩ := ih hw
      exact ⟨b :: l₁, a, l₂, u, v, rfl, ha, by simp, hafter⟩
    rw [List.flatMap_cons] at h
    rcases List.append_eq_append_iff.1 h with ⟨w, hbefore, hw⟩ | ⟨w, hb, hw⟩
    · exact hlater hw hbefore
    · cases w with
      | nil => exact hlater (w := []) hw.symm (by simpa using hb.symm)
      | cons y w =>
        obtain ⟨rfl, rfl⟩ := List.cons.inj hw
        exact ⟨[], b, l, before, w, rfl, hb, rfl, rfl⟩

/-! ## Trimming lists -/

namespace Trim

variable {α β : Type}

def strip (t : Trim) (p : α → Bool) (l : List α) : List α :=
  let l := if t.left then l.dropWhile p else l
  if t.right then (l.reverse.dropWhile p).reverse else l

theorem strip_eq (t : Trim) (p : α → Bool) (l : List α) :
    t.strip p l = let m := if t.left then l.dropWhile p else l
      if t.right then m.rdropWhile p else m := rfl

theorem toList_apply (t : Trim) (s : String) :
    (t.apply s).toList = t.strip isWhiteSpace s.toList := by
  obtain ⟨l, r⟩ := t
  cases l <;> cases r <;> simp [apply, strip, trimStart, trimEnd]

theorem dropWhile_rdropWhile (p : α → Bool) (l : List α) :
    (l.rdropWhile p).dropWhile p = (l.dropWhile p).rdropWhile p := by
  induction l using List.reverseRecOn with
  | nil => rfl
  | append_singleton l a ih =>
    rw [List.dropWhile_append]
    by_cases ha : p a = true
    · rw [List.rdropWhile_concat_pos _ _ _ ha, ih]
      by_cases hl : l.dropWhile p = []
      · simp [hl, ha]
      · rw [if_neg (by simpa using hl), List.rdropWhile_concat_pos _ _ _ ha]
    · rw [List.rdropWhile_concat_neg _ _ _ ha, List.dropWhile_append]
      by_cases hl : l.dropWhile p = []
      · simp [hl, ha, List.rdropWhile_singleton]
      · rw [if_neg (by simpa using hl), List.rdropWhile_concat_neg _ _ _ ha]

def or (a b : Trim) : Trim := ⟨a.left || b.left, a.right || b.right⟩

theorem strip_strip (a b : Trim) (p : α → Bool) (l : List α) :
    a.strip p (b.strip p l) = (a.or b).strip p l := by
  obtain ⟨al, ar⟩ := a
  obtain ⟨bl, br⟩ := b
  cases al <;> cases ar <;> cases bl <;> cases br
  all_goals simp only [strip_eq, or, dropWhile_rdropWhile, List.dropWhile_idempotent,
    List.rdropWhile_idempotent, Bool.or_false, Bool.or_true, if_true, if_false, Bool.false_eq_true]

theorem filter_dropWhile {p q : α → Bool} (h : ∀ a, p a = true → q a = false) (l : List α) :
    (l.dropWhile p).filter q = l.filter q := by
  induction l with
  | nil => rfl
  | cons a l ih =>
    by_cases ha : p a = true
    · rw [List.dropWhile_cons_of_pos ha, List.filter_cons_of_neg (by simp [h a ha]), ih]
    · rw [List.dropWhile_cons_of_neg ha]

/-- What is stripped satisfies `p`. -/
theorem filter_strip {p q : α → Bool} (h : ∀ a, p a = true → q a = false) (t : Trim) (l : List α) :
    (t.strip p l).filter q = l.filter q := by
  have hright : ∀ l : List α, (l.reverse.dropWhile p).reverse.filter q = l.filter q := by
    intro l
    rw [List.filter_reverse, filter_dropWhile h, ← List.filter_reverse, List.reverse_reverse]
  obtain ⟨left, right⟩ := t
  cases left <;> cases right <;> simp [strip, filter_dropWhile h, hright]

theorem dropWhile_flatMap {f : α → List β} {p : β → Bool} {q : α → Bool}
    (hpos : ∀ a, q a = true → ∀ b ∈ f a, p b = true)
    (hneg : ∀ a, q a = false → f a ≠ [] ∧ ∀ b ∈ f a, p b = false) (l : List α) :
    (l.flatMap f).dropWhile p = (l.dropWhile q).flatMap f := by
  induction l with
  | nil => rfl
  | cons a l ih =>
    by_cases ha : q a = true
    · rw [List.flatMap_cons, List.dropWhile_append_of_pos (hpos a ha),
        List.dropWhile_cons_of_pos ha, ih]
    · obtain ⟨hne, hall⟩ := hneg a (by simpa using ha)
      obtain ⟨b, v, hv⟩ := List.exists_cons_of_ne_nil hne
      have hb : ¬ p b = true := by simp [hall b (by simp [hv])]
      rw [List.dropWhile_cons_of_neg ha, List.flatMap_cons, hv, List.cons_append,
        List.dropWhile_cons_of_neg hb]

/-- Where the written form of an item is all stripped or not at all, stripping written forms strips
items. -/
theorem strip_flatMap {f : α → List β} {p : β → Bool} {q : α → Bool}
    (hpos : ∀ a, q a = true → ∀ b ∈ f a, p b = true)
    (hneg : ∀ a, q a = false → f a ≠ [] ∧ ∀ b ∈ f a, p b = false) (t : Trim) (l : List α) :
    t.strip p (l.flatMap f) = (t.strip q l).flatMap f := by
  have hleft := dropWhile_flatMap hpos hneg
  have hback : ∀ l : List α, ((l.flatMap f).reverse.dropWhile p).reverse =
      (l.reverse.dropWhile q).reverse.flatMap f := by
    intro l
    have hmirror := dropWhile_flatMap (f := List.reverse ∘ f) (p := p) (q := q)
      (by simpa using hpos) (by simpa using hneg) l.reverse
    rw [List.reverse_flatMap, hmirror, List.reverse_flatMap]
    simp [Function.comp_def]
  obtain ⟨left, right⟩ := t
  cases left <;> cases right <;> simp [strip, hleft, hback]

end Trim

namespace Html

/-- The characters that may delimit a tag or an attribute value. -/
def isMarkup (c : Char) : Bool :=
  c = '<' || c = '>' || c = '\x22' || c = '\x27' || c = '\x60' || c = '='

theorem not_isMarkup_of_isWhiteSpace (c : Char) (h : isWhiteSpace c = true) :
    isMarkup c = false := by
  refine Bool.eq_false_iff.2 fun hc => ?_
  simp only [isMarkup, Bool.or_eq_true, decide_eq_true_eq] at hc
  rcases hc with ((((rfl | rfl) | rfl) | rfl) | rfl) | rfl
  all_goals exact absurd h (by decide)

def entities : List String :=
  ["&amp;", "&lt;", "&gt;", "&quot;", "&#x27;", "&#x60;", "&#x3D;"]

/-- A character is written as an entity, or it is not special and written as it is. -/
theorem escapeChar_cases (c : Char) :
    (∃ entity ∈ entities, escapeChar c = entity.toList ∧ isWhiteSpace c = false) ∨
      escapeChar c = [c] ∧ isMarkup c = false ∧ c ≠ '&' := by
  unfold escapeChar
  split
  case h_8 h1 h2 h3 h4 h5 h6 h7 =>
    refine .inr ⟨rfl, ?_, h1⟩
    simp only [isMarkup, Bool.or_eq_false_iff, decide_eq_false_iff_not]
    exact ⟨⟨⟨⟨⟨h2, h3⟩, h4⟩, h5⟩, h6⟩, h7⟩
  all_goals exact .inl ⟨_, by decide, rfl, by decide⟩

/-- An entity starts with an ampersand and holds no other special character and no white space. -/
theorem of_mem_entities {entity : String} (h : entity ∈ entities) :
    ∃ t, entity.toList = '&' :: t ∧ '&' ∉ t ∧
      ∀ c ∈ entity.toList, isMarkup c = false ∧ isWhiteSpace c = false := by
  have hall : ∀ entity ∈ entities, entity.toList.all
      (fun c => isMarkup c = false ∧ isWhiteSpace c = false) = true := by decide
  have hplain := List.all_eq_true.1 (hall entity h)
  simp only [entities, List.mem_cons, List.not_mem_nil, or_false] at h
  rcases h with rfl | rfl | rfl | rfl | rfl | rfl | rfl
  all_goals exact ⟨_, rfl, by decide, fun c hc => of_decide_eq_true (hplain c hc)⟩

theorem escapeChar_of_isWhiteSpace {c : Char} (h : isWhiteSpace c = true) :
    escapeChar c = [c] := by
  rcases escapeChar_cases c with ⟨_, -, -, hblack⟩ | ⟨heq, -, -⟩
  · rw [hblack] at h
    cases h
  · exact heq

theorem not_isWhiteSpace_of_mem_escapeChar {c : Char} (h : isWhiteSpace c = false) :
    escapeChar c ≠ [] ∧ ∀ d ∈ escapeChar c, isWhiteSpace d = false := by
  rcases escapeChar_cases c with ⟨entity, hmem, heq, -⟩ | ⟨heq, -, -⟩
  · obtain ⟨t, ht, -, hall⟩ := of_mem_entities hmem
    rw [heq]
    exact ⟨by simp [ht], fun d hd => (hall d hd).2⟩
  · rw [heq]
    exact ⟨by simp, by simpa using h⟩

theorem not_isMarkup_of_mem_escapeChar {c d : Char} (h : d ∈ escapeChar c) :
    isMarkup d = false := by
  rcases escapeChar_cases c with ⟨entity, hmem, heq, -⟩ | ⟨heq, hplain, -⟩
  · obtain ⟨t, -, -, hall⟩ := of_mem_entities hmem
    exact (hall d (heq ▸ h)).1
  · rw [heq, List.mem_singleton] at h
    rwa [h]

theorem eq_of_singleton_eq {c d : Char} {before after : List Char}
    (h : [c] = before ++ d :: after) : before = [] ∧ c = d := by
  cases before with
  | nil => exact ⟨rfl, (List.cons.inj h).1⟩
  | cons e before => simp at h

/-- An ampersand in what is written for one character starts an entity. -/
theorem ampersand_of_escapeChar {c : Char} {before after : List Char}
    (h : escapeChar c = before ++ '&' :: after) :
    before = [] ∧ ∃ entity ∈ entities, entity.toList = '&' :: after := by
  rcases escapeChar_cases c with ⟨entity, hmem, heq, -⟩ | ⟨heq, -, hne⟩
  · obtain ⟨t, ht, hnot, -⟩ := of_mem_entities hmem
    rw [heq] at h
    cases before with
    | nil => exact ⟨rfl, entity, hmem, h⟩
    | cons d before =>
      -- an entity has no second ampersand
      rw [ht, List.cons_append] at h
      rw [(List.cons.inj h).2] at hnot
      simp at hnot
  · rw [heq] at h
    exact (hne (eq_of_singleton_eq h).2).elim

/-! ## Reading entities back -/

/-- The text with its entities replaced by the characters that they are written for, from left to
right. -/
def unescapeChars : List Char → List Char
  | '&' :: 'a' :: 'm' :: 'p' :: ';' :: rest => '&' :: unescapeChars rest
  | '&' :: 'l' :: 't' :: ';' :: rest => '<' :: unescapeChars rest
  | '&' :: 'g' :: 't' :: ';' :: rest => '>' :: unescapeChars rest
  | '&' :: 'q' :: 'u' :: 'o' :: 't' :: ';' :: rest => '\x22' :: unescapeChars rest
  | '&' :: '#' :: 'x' :: '2' :: '7' :: ';' :: rest => '\x27' :: unescapeChars rest
  | '&' :: '#' :: 'x' :: '6' :: '0' :: ';' :: rest => '\x60' :: unescapeChars rest
  | '&' :: '#' :: 'x' :: '3' :: 'D' :: ';' :: rest => '=' :: unescapeChars rest
  | c :: rest => c :: unescapeChars rest
  | [] => []

/-- The text that is written for HTML as the given one. -/
def unescape (s : String) : String :=
  String.ofList (unescapeChars s.toList)

theorem unescapeChars_cons {c : Char} (h : c ≠ '&') (rest : List Char) :
    unescapeChars (c :: rest) = c :: unescapeChars rest := by
  rw [unescapeChars]
  all_goals exact fun _ hc _ => h hc

/-- The written form of a character reads back as the character, whatever follows it. -/
theorem unescapeChars_escapeChar (c : Char) (rest : List Char) :
    unescapeChars (escapeChar c ++ rest) = c :: unescapeChars rest := by
  unfold escapeChar
  split
  case h_8 hne _ _ _ _ _ _ => exact unescapeChars_cons hne rest
  all_goals rfl

theorem unescape_escape (s : String) : unescape (escape s) = s := by
  have hchars : ∀ cs : List Char, unescapeChars (cs.flatMap escapeChar) = cs := by
    intro cs
    induction cs with
    | nil => rfl
    | cons c cs ih => rw [List.flatMap_cons, unescapeChars_escapeChar, ih]
  rw [unescape, escape, String.toList_ofList, hchars, String.ofList_toList]

theorem escape_append (s t : String) : escape (s ++ t) = escape s ++ escape t := by
  rw [escape, String.toList_append, List.flatMap_append, String.ofList_append]
  rfl

/-- Writing a text for HTML loses nothing: replacing the entities from left to right gives it back,
so no two texts are written alike. Texts in a row are written one after the other. In the written
form there is no character left that may delimit a tag or an attribute value, and each ampersand
starts an entity. -/
theorem escape_reversible (s t : String) :
    (escape s = escape t → s = t) ∧ unescape (escape s) = s ∧
    escape (s ++ t) = escape s ++ escape t ∧
    (∀ c ∈ (escape s).toList, isMarkup c = false) ∧
    ∀ before after, (escape s).toList = before ++ '&' :: after →
      ∃ entity ∈ entities, entity.toList <+: '&' :: after := by
  refine ⟨fun h => ?_, unescape_escape s, escape_append s t, fun c hc => ?_,
    fun before after h => ?_⟩
  · rw [← unescape_escape s, h, unescape_escape]
  · rw [escape, String.toList_ofList] at hc
    obtain ⟨d, -, hd⟩ := List.mem_flatMap.1 hc
    exact not_isMarkup_of_mem_escapeChar hd
  · rw [escape, String.toList_ofList] at h
    obtain ⟨_, c, l, u, v, -, hc, -, rfl⟩ := exists_of_flatMap_eq h
    obtain ⟨-, entity, hmem, heq⟩ := ampersand_of_escapeChar hc
    refine ⟨entity, hmem, l.flatMap escapeChar, ?_⟩
    rw [heq]
    rfl

/-- A text that holds an entity, an ampersand before what looks like the rest of one, and quotes. -/
theorem escape_reversible_entity :
    escape "&lt;&#x'" = "&amp;lt;&amp;#x&#x27;" ∧ unescape "&amp;lt;&amp;#x&#x27;" = "&lt;&#x'" ∧
      ∃ entity ∈ entities, entity.toList <+: "&amp;#x&#x27;".toList := by
  have h : escape "&lt;&#x'" = "&amp;lt;&amp;#x&#x27;" := by decide
  obtain ⟨-, hback, -, -, hampersand⟩ := escape_reversible "&lt;&#x'" ""
  rw [h] at hback hampersand
  exact ⟨h, hback, hampersand "&amp;lt;".toList "amp;#x&#x27;".toList (by decide)⟩

end Html
end BraceTemplate
