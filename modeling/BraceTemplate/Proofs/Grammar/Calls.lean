import BraceTemplate.Proofs.Grammar.Enclosing

/-!
# Calls between braces and calls that open a block

What stands behind the name of a call is the same for an inline call and for a block: a list of
parameters, blanks and perhaps a marker (`CallText`). The two differ in what stands before the list.
A block wants a blank there. An inline call also takes a quoted text or a subexpression right behind
its name, where a block refuses it.
-/

namespace BraceTemplate

variable {inner : List Param → List Char → Prop} {params : List Param} {name inside : String}
variable {right : Bool} {x : List Char}

/-! ## What is read -/

/-- With `inside` between its name and its closing braces, an inline call is a template of this one
call, with these parameters and this marker at its end. -/
def ReadsInline (name inside : String) (params : List Param) (right : Bool) : Prop :=
  ∃ body otherwise left marks, parse ("\x7b\x7b" ++ name ++ inside ++ "\x7d\x7d") =
    .ok [.helper .escaped name params body otherwise ⟨left, right⟩ marks]

/-- So is a block whose opening tag has `inside` there, and which is closed at once. It has
parameters, and no alternative. -/
def ReadsBlock (name inside : String) (params : List Param) (right : Bool) : Prop :=
  params ≠ [] ∧ ∃ trim left between closing,
    parse ("\x7b\x7b#" ++ name ++ inside ++ "\x7d\x7d" ++ closeTag name) =
      .ok [.helper .raw name params (some []) none trim (some ⟨⟨left, right⟩, between, closing⟩)]

/-! ## What is written -/

/-- What stands behind the name of a call: parameters, written as `T` says, blanks and perhaps a
marker. -/
def CallText (T : List Param → List Char → Prop) (params : List Param) (right : Bool)
    (x : List Char) : Prop :=
  params ≠ [] ∧ ¬ EndsInElse params ∧ ∃ w b, T params w ∧ Blanks b ∧ x = w ++ b ++ mark right

/-- Neither a marker nor a blank stands before a name with which a text starts. -/
theorem eq_nil_of_name_append {l : Bool} {b s : List Char} (hname : IsName name) (hb : Blanks b)
    (h : name.toList ++ x = mark l ++ (b ++ s)) : l = false ∧ b = [] := by
  have hhead : headIs isNameChar (mark l ++ (b ++ s)) = true := h ▸ hname.headIs_mono id
  cases l with
  | true => cases hhead
  | false =>
    refine ⟨rfl, ?_⟩
    by_contra hne
    rw [mark_false, List.nil_append, notBlank_isNameChar.headIs_of_ne_nil hne hb] at hhead
    cases hhead

/-- The tag that closes a block has no markers but those that are seen. -/
theorem eq_none_of_closingText {u w : List Char} {t : Trim} (hname : IsName name)
    (h : u ++ closingText name .none = w ++ closingText name t) : t = .none := by
  have hlast : ∀ {c}, name.toList.getLast? = some c → isNameChar c = true := fun hc =>
    hname.2 _ (List.mem_of_getLast? hc)
  obtain ⟨c, hc⟩ : ∃ c, name.toList.getLast? = some c := by
    rw [← Option.isSome_iff_exists, List.getLast?_isSome]
    exact hname.1
  obtain ⟨left, right⟩ := t
  simp only [closingText, Trim.none, mark_false, List.append_nil, ← List.append_assoc] at h
  have hright := List.append_cancel_right h
  cases right with
  | true =>
    have := congrArg List.getLast? hright
    simp only [mark_true, List.getLast?_append, hc] at this
    cases this
    cases hlast hc
  | false =>
    rw [mark_false, List.append_nil] at hright
    have hleft := List.append_cancel_right (List.append_cancel_right hright)
    cases left with
    | true =>
      have := congrArg List.getLast? hleft
      simp [Output.opening, List.getLast?_append] at this
    | false => rfl

theorem bodyText_nil_iff {u : List Char} {k : Nat} : BodyText (k + 1) [] u ↔ u = [] := by
  constructor
  · rintro ⟨h, -⟩
    cases h
    rfl
  · rintro rfl
    exact ⟨.nil, by simp⟩

theorem readsInline_iff (hname : IsName name) : ReadsInline name inside params right ↔
    CallText (Trailing (ParamText (InnerText defaultDepth))) params right inside.toList := by
  have htext : ("\x7b\x7b" ++ name ++ inside ++ "\x7d\x7d").toList =
      Output.escaped.opening ++ (name.toList ++ inside.toList) ++ Output.escaped.closing := by
    simp [Output.opening, Output.closing]
  constructor
  · rintro ⟨body, otherwise, left, marks, h⟩
    rw [parse, parseWithin_eq_singleton_iff (by simp), htext] at h
    generalize hw : Output.escaped.opening ++ (name.toList ++ inside.toList) ++
      Output.escaped.closing = w at h
    cases h with
    | @helper _ _ _ b w b' _ _ hb _ hne he hw' hb' =>
      simp only [List.append_assoc, List.append_cancel_left_eq] at hw
      obtain ⟨rfl, rfl⟩ := eq_nil_of_name_append hname hb hw
      refine ⟨hne, he, w, b', hw', hb', ?_⟩
      refine List.append_cancel_right (show inside.toList ++ Output.escaped.closing = _ from ?_)
      simpa only [mark_false, List.nil_append, List.append_cancel_left_eq, List.append_assoc]
        using hw
  · rintro ⟨hne, he, w, b, hw, hb, hx⟩
    refine ⟨none, none, false, none, (parseWithin_eq_singleton_iff (by simp)).2 ?_⟩
    rw [htext]
    have htag : TagText (InnerText defaultDepth) (BodyText defaultDepth)
        (.helper .escaped name params none none ⟨false, right⟩ none) _ :=
      .helper blanks_nil hname hne he hw hb
    simpa [hx] using htag

theorem readsBlock_iff (hname : IsName name) : ReadsBlock name inside params right ↔
    CallText (Spaced (ParamText (InnerText defaultDepth))) params right inside.toList := by
  have htext : ("\x7b\x7b#" ++ name ++ inside ++ "\x7d\x7d" ++ closeTag name).toList =
      Output.escaped.opening ++ ['#'] ++ name.toList ++ inside.toList ++ Output.escaped.closing ++
        closingText name .none := by
    simp [Output.opening, Output.closing, toList_closeTag]
  constructor
  · rintro ⟨hne, trim, left, between, closing, h⟩
    rw [parse, parseWithin_eq_singleton_iff (by simp), htext] at h
    generalize hw : Output.escaped.opening ++ ['#'] ++ name.toList ++ inside.toList ++
      Output.escaped.closing ++ closingText name .none = w at h
    cases h with
    | @block _ _ w b u v _ _ _ _ _ _ _ _ he hw' hb hu hv =>
      obtain rfl := bodyText_nil_iff.1 hu
      cases hv
      obtain rfl := eq_none_of_closingText hname hw
      have hhead := List.append_cancel_right hw
      simp only [List.append_nil] at hhead
      replace hhead := List.append_cancel_right hhead
      cases left with
      | true => simp [Output.opening] at hhead
      | false =>
        refine ⟨hne, he, w, b, hw', hb, ?_⟩
        simpa only [mark_false, List.append_nil, List.append_cancel_left_eq, List.append_assoc]
          using hhead
  · rintro ⟨hne, he, w, b, hw, hb, hx⟩
    refine ⟨hne, .none, false, .none, .none, (parseWithin_eq_singleton_iff (by simp)).2 ?_⟩
    rw [htext]
    have htag : TagText (InnerText defaultDepth) (BodyText defaultDepth)
        (.helper .raw name params (some []) none .none
          (some ⟨⟨false, right⟩, .none, .none⟩)) _ :=
      .block hname (fun h => (hne h).elim) he hw hb (bodyText_nil_iff.2 rfl) .none
    simpa [hx] using htag

/-! ## Lists with and without a blank before them -/

/-- A parameter that can stand right behind a name starts with such a character. -/
theorem ParamText.headIs_isTightStart {p : Param} {w : List Char} (h : ParamText inner p w)
    (hname : BraceTemplate.headIs isNameChar w = false) :
    BraceTemplate.headIs isTightStart w = true := by
  have hstart := h.headIs
  cases w with
  | nil => cases hstart
  | cons c w =>
    rw [headIs_cons] at hstart hname
    simpa [isParamStart, isTightStart, hname] using hstart

/-- Where a list comes behind a blank, it may come behind a name. -/
theorem CallText.trailing (h : CallText (Spaced (ParamText inner)) params right x) :
    CallText (Trailing (ParamText inner)) params right x := by
  obtain ⟨hne, he, w, b, hw, hb, rfl⟩ := h
  exact ⟨hne, he, w, b, hw.trailing, hb, rfl⟩

/-- A list that comes right behind a name starts with a quote or a parenthesis. With a blank before
it, it comes behind a blank. -/
theorem CallText.spaced_or_tight (h : CallText (Trailing (ParamText inner)) params right x) :
    CallText (Spaced (ParamText inner)) params right x ∨
      headIs isTightStart x = true ∧
        CallText (Spaced (ParamText inner)) params right (' ' :: x) := by
  obtain ⟨hne, he, _, b, hw, hb, rfl⟩ := h
  cases hw with
  | nil => exact (hne rfl).elim
  | @cons g w v p params hg hgap hw hs =>
    by_cases hg0 : g = []
    · subst hg0
      have htight := hw.headIs_isTightStart (hgap rfl)
      refine .inr ⟨?_, hne, he, [' '] ++ w ++ v, b, ?_, hb, by simp⟩
      · rw [List.nil_append, List.append_assoc, List.append_assoc,
          headIs_append (ne_nil_of_headIs htight)]
        exact htight
      · exact .cons (by simp) blanks_space hw hs
    · exact .inl ⟨hne, he, _, b, .cons hg0 hg hw hs, hb, rfl⟩

/-- A list behind a blank does not start with a quote or a parenthesis. -/
theorem CallText.not_tight (h : CallText (Spaced (ParamText inner)) params right x) :
    headIs isTightStart x = false := by
  obtain ⟨hne, -, _, b, hw, -, rfl⟩ := h
  cases hw with
  | nil => exact (hne rfl).elim
  | cons hg0 hg _ _ =>
    simp only [List.append_assoc]
    exact notBlank_isTightStart.headIs_of_ne_nil hg0 hg

/-- Without the one blank before it, such a list may come right behind a name. -/
theorem CallText.trailing_of_tight (ht : headIs isTightStart x = true)
    (h : CallText (Spaced (ParamText inner)) params right (' ' :: x)) :
    CallText (Trailing (ParamText inner)) params right x := by
  obtain ⟨hne, he, _, b, hw, hb, hx⟩ := h
  cases hw with
  | nil => exact (hne rfl).elim
  | @cons g w v p params hg0 hg hw hs =>
    obtain ⟨c, g, rfl⟩ := List.exists_cons_of_ne_nil hg0
    simp only [List.cons_append, List.append_assoc, List.cons.injEq] at hx
    obtain ⟨-, rfl⟩ := hx
    have hblanks : Blanks g := fun d hd => hg d (by simp [hd])
    by_cases hempty : g = []
    · subst hempty
      rw [List.nil_append, headIs_append (ne_nil_of_headIs hw.headIs)] at ht
      have hgap := headIs_of_headIs ht not_isNameChar_of_isTightStart
      exact ⟨hne, he, [] ++ w ++ v, b, .cons blanks_nil (fun _ => hgap) hw hs, hb, by simp⟩
    · rw [notBlank_isTightStart.headIs_of_ne_nil hempty hblanks] at ht
      cases ht

/-! ## Both -/

/-- Inline calls and blocks read the same texts behind their names as the same lists of parameters,
with the same marker at the end of the tag, but for one difference: a list that starts with a quote
or a parenthesis may come right behind the name of an inline call, where a block wants a blank. -/
theorem readsInline_iff_readsBlock (hname : IsName name) (inside : String) :
    (headIs isTightStart inside.toList = false → ∀ params right,
      ReadsInline name inside params right ↔ ReadsBlock name inside params right) ∧
    (headIs isTightStart inside.toList = true → ∀ params right,
      ¬ ReadsBlock name inside params right ∧
        (ReadsInline name inside params right ↔ ReadsBlock name (" " ++ inside) params right)) := by
  have hspace : (" " ++ inside).toList = ' ' :: inside.toList := by simp
  simp only [readsInline_iff hname, readsBlock_iff hname, hspace]
  refine ⟨fun ht params right => ⟨fun h => ?_, CallText.trailing⟩,
    fun ht params right => ⟨fun h => ?_, fun h => ?_, CallText.trailing_of_tight ht⟩⟩
  · refine h.spaced_or_tight.resolve_right fun h => ?_
    rw [ht] at h
    cases h.1
  · rw [h.not_tight] at ht
    cases ht
  · refine (h.spaced_or_tight.resolve_left fun h => ?_).2
    rw [h.not_tight] at ht
    cases ht

/-- A call with two parameters and a marker, and one with a quoted text right behind its name. -/
theorem readsBlock_marked :
    IsName "f" ∧ ReadsBlock "f" " a (g)~" [.path "a", .call "g" []] true ∧
      ReadsBlock "f" " 'a'" [.literal "a"] false := by
  have hname : IsName "f" := by decide
  refine ⟨hname, ((readsInline_iff_readsBlock hname _).1 (by decide) _ _).1 ?_,
    ((readsInline_iff_readsBlock hname "'a'").2 (by decide) _ _).2.1 ?_⟩
  · exact ⟨none, none, false, none, by cbv⟩
  · exact ⟨none, none, false, none, by cbv⟩

/-- Right behind a name, a quoted text is a parameter of an inline call and of no block. -/
theorem readsInline_not_readsBlock :
    IsName "f" ∧ "f" ≠ "else" ∧ ReadsInline "f" "'a'" [.literal "a"] false ∧
      ∀ params right, ¬ ReadsBlock "f" "'a'" params right := by
  refine ⟨by decide, by decide, ⟨none, none, false, none, by cbv⟩, fun params right h => ?_⟩
  have htight := ((readsBlock_iff (by decide)).1 h).not_tight
  cases htight

end BraceTemplate
