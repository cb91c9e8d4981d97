import BraceTemplate.Proofs.Grammar.Written

/-!
# Written lists of parameters are read

Each written form of a list of parameters, arguments or names is read by the rule for it, whatever
text follows, as long as that text ends the list (`Ends`). The rule for what stands inside a
subexpression is any that reads what is written there, and an induction on the number of levels
closes the circle.
-/

namespace BraceTemplate

open Rule

variable {s rest w b : List Char} {rInner : Rule (List Param)}
variable {inner : List Param → List Char → Prop}

/-! ## First characters -/

def isParamStart (c : Char) : Bool :=
  isNameChar c || c = '\x27' || c = '\x22' || c = '('

/-- The characters of a parameter that cannot belong to the name before it. -/
def isTightStart (c : Char) : Bool := c = '\x27' || c = '\x22' || c = '('

theorem isParamStart_of_isNameChar {c : Char} (h : isNameChar c = true) :
    isParamStart c = true := by
  simp [isParamStart, h]

theorem notBlank_isTightStart : NotBlank isTightStart := notBlank_of_all (by decide)

theorem not_isNameChar_of_isTightStart : ∀ c, isTightStart c = true → isNameChar c = false := by
  intro c hc
  simp only [isTightStart, Bool.or_eq_true, decide_eq_true_eq] at hc
  rcases hc with (rfl | rfl) | rfl <;> decide

theorem isParamStart_of_isTightStart : ∀ c, isTightStart c = true → isParamStart c = true := by
  intro c hc
  simp only [isTightStart, Bool.or_eq_true, decide_eq_true_eq] at hc
  rcases hc with (rfl | rfl) | rfl <;> rfl

theorem IsPath.all {p : String} (h : IsPath p) : ∀ c ∈ p.toList, isPathChar c = true := by
  obtain ⟨head, others, hh, hos, rfl⟩ := h
  intro c hc
  rw [toList_path, List.mem_append, dotted, List.mem_flatMap] at hc
  rcases hc with hc | ⟨n, hn, hc⟩
  · simp [isPathChar, hh.2 c hc]
  · rcases List.mem_cons.1 hc with rfl | hc
    · decide
    · simp [isPathChar, (hos n hn).2 c hc]

theorem IsPath.headIs {p : String} (h : IsPath p) : headIs isNameChar p.toList = true := by
  obtain ⟨head, others, hh, -, rfl⟩ := h
  rw [toList_path]
  exact hh.headIs_mono id

theorem ne_nil_of_headIs {q : Char → Bool} (h : headIs q w = true) : w ≠ [] := by
  rintro rfl
  cases h

theorem ParamText.headIs {p : Param} (h : ParamText inner p w) : headIs isParamStart w = true := by
  cases h with
  | @path p hp =>
    have := hp.headIs
    cases hw : p.toList with
    | nil => simp [hw] at this
    | cons c cs =>
      rw [hw] at this
      exact isParamStart_of_isNameChar this
  | literal hq _ => rcases hq with rfl | rfl <;> rfl
  | call => rfl

/-! ## What ends a list -/

/-- The characters that may follow the parameters of a call, after blanks. -/
def isCallEnd (c : Char) : Bool := c = '~' || c = '}' || c = ')'

/-- The text ends a list of parameters: it goes on with the end of a tag or subexpression, or with
the names of a binder. -/
structure Ends (rest : List Char) : Prop where
  apart : headIs isPathChar rest = false
  stop : introducesNames (skipBlanks rest) = true ∨ headIs isCallEnd (skipBlanks rest) = true

theorem introducesNames_eq_true :
    introducesNames s = true ↔
      ∃ t, s = ['a', 's'] ++ t ∧ headIs (· = '|') (skipBlanks t) = true := by
  unfold introducesNames
  split
  · rename_i h
    simp only [Bool.false_eq_true, false_iff, not_exists, not_and]
    rintro t rfl
    rw [stripPrefix_append] at h
    cases h
  · rename_i t h
    obtain rfl := stripPrefix_eq_some.1 h
    simp only [List.append_cancel_left_eq, exists_eq_left']
    cases ht : skipBlanks t with
    | nil => rfl
    | cons c t =>
      by_cases hc : '|' = c
      · subst hc
        simp [stripPrefix]
      · simp [stripPrefix, hc, Ne.symm hc]

theorem headIs_of_headIs {p q : Char → Bool} (h : headIs p s = true)
    (hq : ∀ c, p c = true → q c = false) : headIs q s = false := by
  cases s with
  | nil => rfl
  | cons c s => exact hq c h

theorem not_isParamStart_of_isCallEnd : ∀ c, isCallEnd c = true → isParamStart c = false := by
  intro c hc
  simp only [isCallEnd, Bool.or_eq_true, decide_eq_true_eq] at hc
  rcases hc with (rfl | rfl) | rfl <;> decide

theorem Ends.bar (h : Ends rest) : headIs (· = '|') (skipBlanks rest) = false := by
  rcases h.stop with h | h
  · obtain ⟨t, ht, -⟩ := introducesNames_eq_true.1 h
    rw [ht]
    rfl
  · refine headIs_of_headIs h fun c hc => ?_
    simp only [isCallEnd, Bool.or_eq_true, decide_eq_true_eq] at hc
    rcases hc with (rfl | rfl) | rfl <;> decide

theorem ends_closing (hb : Blanks b) (r : Bool) (output : Output) :
    Ends (b ++ (mark r ++ (output.closing ++ s))) where
  apart := notBlank_isPathChar.headIs hb
    (headIs_append_eq_false (headIs_mark (by decide)) (headIs_closing (by decide)))
  stop := by
    rw [skipBlanks_append hb]
    cases r <;> cases output <;> exact .inr rfl

theorem ends_paren (hb : Blanks b) : Ends (b ++ ([')'] ++ s)) where
  apart := notBlank_isPathChar.headIs hb rfl
  stop := by
    rw [skipBlanks_append hb]
    exact .inr rfl

theorem ends_names {b' : List Char} (hne : b ≠ []) (hb : Blanks b) (hb' : Blanks b') :
    Ends (b ++ (['a', 's'] ++ (b' ++ (['|'] ++ s)))) where
  apart := notBlank_isPathChar.headIs_of_ne_nil hne hb
  stop := by
    rw [skipBlanks_append hb]
    refine .inl (introducesNames_eq_true.2 ⟨_, rfl, ?_⟩)
    rw [skipBlanks_append hb']
    rfl

/-! ## Parameters -/

/-- The characters that close a tag, after blanks. -/
def isTagEnd (c : Char) : Bool := c = '~' || c = '}'

theorem headIs_isTagEnd (h : closesTag s = true) : headIs isTagEnd (skipBlanks s) = true := by
  unfold closesTag at h
  cases hs : skipBlanks s with
  | nil => simp [hs, stripPrefix] at h
  | cons c t =>
    by_cases h1 : c = '~'
    · simp [isTagEnd, h1]
    · by_cases h2 : c = '}'
      · simp [isTagEnd, h2]
      · simp [hs, stripPrefix, Ne.symm h1, Ne.symm h2] at h

theorem closesTag_eq_false (h : headIs isTagEnd (skipBlanks s) = false) : closesTag s = false := by
  refine Bool.eq_false_iff.2 fun hc => ?_
  rw [headIs_isTagEnd hc] at h
  cases h

theorem refuses_parameter (h : introducesNames s = true ∨ headIs isParamStart s = false) :
    Refuses (Grammar.parameter rInner) s := by
  unfold Grammar.parameter
  rw [refuses_bind, refuses_refuse]
  by_cases hn : introducesNames s = true
  · exact .inl hn
  · have hs := h.resolve_left hn
    have hq : ∀ {q : Char → Bool}, (∀ c, isParamStart c = false → q c = false) →
        headIs q s = false := by
      intro q hq
      cases s with
      | nil => rfl
      | cons c s => exact hq c hs
    refine .inr ⟨(), s, reads_refuse.2 ⟨by simpa using hn, rfl⟩, refuses_firstOf.2 ?_⟩
    simp only [List.mem_cons, List.not_mem_nil, or_false, forall_eq_or_imp, forall_eq]
    simp only [isParamStart, Bool.or_eq_false_iff] at hq
    refine ⟨Refuses.bind (Refuses.bind (refuses_identifier.2 (.inr (hq fun c h => h.1.1.1)))),
      Refuses.bind (refuses_orElse.2 ⟨?_, ?_⟩), Refuses.bind (refuses_literal.2 ?_)⟩
    · exact refuses_quotedBy (hq fun c h => h.1.1.2)
    · exact refuses_quotedBy (hq fun c h => h.1.2)
    · exact stripPrefix_cons_eq_none (hq fun c h => h.2)

theorem Ends.refuses_parameter (h : Ends rest) :
    Refuses (Grammar.parameter rInner) (skipBlanks rest) :=
  BraceTemplate.refuses_parameter
    (h.stop.imp_right fun h => headIs_of_headIs h not_isParamStart_of_isCallEnd)

theorem refuses_blanks_bind {α : Type} {r : Rule α} (h : Refuses r (skipBlanks s)) :
    Refuses (do Grammar.blanks; r) s :=
  Reads.seq_refuses (reads_blanks.2 ⟨_, List.all_eq_true.1 List.all_takeWhile,
    headIs_dropWhile _ _, List.takeWhile_append_dropWhile.symm⟩) h

/-- Where there is a blank, all of them are read. -/
theorem reads_space_skipBlanks (h : headIs isBlank s = true) :
    Reads Grammar.space s () (skipBlanks s) := by
  refine reads_space.2 ⟨_, ?_, List.all_eq_true.1 List.all_takeWhile, headIs_dropWhile _ _,
    List.takeWhile_append_dropWhile.symm⟩
  cases s with
  | nil => cases h
  | cons c s => simp [show isBlank c = true from h]

theorem refuses_space_bind {α : Type} {r : Rule α} (h : Refuses r (skipBlanks s)) :
    Refuses (do Grammar.space; r) s := by
  by_cases hs : headIs isBlank s = true
  · exact Reads.seq_refuses (reads_space_skipBlanks hs) h
  · exact Refuses.bind (refuses_space.2 (by simpa using hs))

/-- The rule reads each written form of a list of parameters that is ended by the text behind. -/
def ReadsParams (r : Rule (List Param)) (T : List Param → List Char → Prop) : Prop :=
  ∀ ⦃params w rest⦄, T params w → Ends rest → (EndsInElse params → closesTag rest = false) →
    Reads r (w ++ rest) params rest

/-- Only the word `as` before a bar is taken for the start of the names of a binder. -/
theorem IsPath.introducesNames {p : String} (hp : IsPath p)
    (hr : BraceTemplate.headIs isPathChar rest = false)
    (hb : BraceTemplate.headIs (· = '|') (skipBlanks rest) = false) :
    introducesNames (p.toList ++ rest) = false := by
  refine Bool.eq_false_iff.2 fun h => ?_
  obtain ⟨t, ht, hbar⟩ := introducesNames_eq_true.1 h
  have hht : BraceTemplate.headIs isPathChar t = false := by
    cases t with
    | nil => rfl
    | cons c t =>
      by_cases hc : isBlank c = true
      · exact notBlank_isPathChar c hc
      · rw [skipBlanks_of_not_head (by simpa using hc)] at hbar
        simp only [headIs_cons, decide_eq_true_eq] at hbar
        subst hbar
        rfl
  have h1 := run_unique.2 ⟨hp.all, hr, rfl⟩
  have h2 := run_unique.2
    ⟨List.all_eq_true.1 (show ['a', 's'].all isPathChar = true by decide), hht, ht⟩
  obtain rfl : rest = t := h1.2.trans h2.2.symm
  rw [hbar] at hb
  cases hb

/-- Behind `x` another item of a list follows. -/
def Apart (x : List Char) : Prop :=
  ∃ g t, g ≠ [] ∧ Blanks g ∧ headIs isParamStart t = true ∧ x = g ++ t

/-- The text ends a parameter, if that is not the variable `else`. -/
structure Follows (x : List Char) : Prop where
  apart : headIs isPathChar x = false
  bar : headIs (· = '|') (skipBlanks x) = false

theorem Ends.follows (h : Ends rest) : Follows rest := ⟨h.apart, h.bar⟩

theorem notBlank_isParamStart : NotBlank isParamStart := notBlank_of_all (by decide)

theorem not_isBlank_of_isParamStart : ∀ c, isParamStart c = true → isBlank c = false := by
  intro c hc
  refine Bool.eq_false_iff.2 fun hb => ?_
  rw [notBlank_isParamStart c hb] at hc
  cases hc

theorem ne_of_isParamStart {d : Char} (hd : isParamStart d = false) :
    ∀ c, isParamStart c = true → decide (c = d) = false := by
  intro c hc
  simp only [decide_eq_false_iff_not]
  rintro rfl
  rw [hc] at hd
  cases hd

theorem not_isTagEnd_of_isParamStart : ∀ c, isParamStart c = true → isTagEnd c = false := by
  intro c hc
  rw [isTagEnd, ne_of_isParamStart (by decide) c hc, ne_of_isParamStart (by decide) c hc]
  rfl

theorem skipBlanks_paramStart (hb : Blanks b) (h : headIs isParamStart s = true) :
    skipBlanks (b ++ s) = s :=
  (skipBlanks_append hb).trans
    (skipBlanks_of_not_head (headIs_of_headIs h not_isBlank_of_isParamStart))

theorem Apart.headIs {x : List Char} {q : Char → Bool} (hq : NotBlank q) (h : Apart x) :
    BraceTemplate.headIs q x = false := by
  obtain ⟨g, t, hne, hg, -, rfl⟩ := h
  exact hq.headIs_of_ne_nil hne hg

theorem Apart.follows {x : List Char} (h : Apart x) : Follows x where
  apart := h.headIs notBlank_isPathChar
  bar := by
    obtain ⟨g, t, -, hg, ht, rfl⟩ := h
    rw [skipBlanks_paramStart hg ht]
    exact headIs_of_headIs ht (ne_of_isParamStart (by decide))

theorem Apart.closesTag {x : List Char} (h : Apart x) : closesTag x = false := by
  obtain ⟨g, t, -, hg, ht, rfl⟩ := h
  refine closesTag_eq_false ?_
  rw [skipBlanks_paramStart hg ht]
  exact headIs_of_headIs ht not_isTagEnd_of_isParamStart

/-- The items of a list start like parameters. -/
def Starts {α : Type} (T : α → List Char → Prop) : Prop :=
  ∀ ⦃a w⦄, T a w → headIs isParamStart w = true

theorem Starts.append {α : Type} {T : α → List Char → Prop} (hT : Starts T) {a : α} (h : T a w) :
    headIs isParamStart (w ++ s) = true :=
  (headIs_append (ne_nil_of_headIs (hT h))).trans (hT h)

theorem Starts.notBlank {α : Type} {T : α → List Char → Prop} (hT : Starts T) {a : α}
    (h : T a w) : headIs isBlank (w ++ s) = false :=
  headIs_of_headIs (hT.append h) not_isBlank_of_isParamStart

theorem starts_paramText : Starts (ParamText inner) := fun _ _ h => h.headIs

theorem starts_argumentText : Starts (ArgumentText inner) := by
  rintro _ _ ⟨hk, -, -, -⟩
  simp only [List.append_assoc]
  exact hk.headIs_mono isParamStart_of_isNameChar

theorem starts_nameText : Starts NameText := by
  rintro name _ ⟨hn, rfl⟩
  rw [← List.append_nil name.toList]
  exact hn.headIs_mono isParamStart_of_isNameChar

/-- The rule reads an item of a list wherever the text behind satisfies `F`, which it does if
another item follows; but not the variable `else` at the end of a tag. -/
structure ReadsItems {α : Type} (r : Rule α) (T : α → List Char → Prop) (f : α → Param)
    (F : List Char → Prop) : Prop where
  starts : Starts T
  reads : ∀ {a w x}, T a w → F x → (f a = .path "else" → closesTag x = false) → Reads r (w ++ x) a x
  apart : ∀ {x}, Apart x → F x

theorem endsInElse_cons {p : Param} {params : List Param} (h : EndsInElse params) :
    EndsInElse (p :: params) := by
  cases params with
  | nil => cases h
  | cons q params => simpa [EndsInElse] using h

section
variable {α : Type} {r : Rule α} {T : α → List Char → Prop} {f : α → Param}
variable {F : List Char → Prop} {as : List α} {v : List Char}

theorem ReadsItems.next (hr : ReadsItems r T f F) (hrest : F rest) (h : Spaced T as v) :
    F (v ++ rest) := by
  cases h with
  | nil => exact hrest
  | @cons g w v a as hne hg hw _ =>
    exact hr.apart ⟨g, w ++ (v ++ rest), hne, hg, hr.starts.append hw, by simp⟩

theorem ReadsItems.goesOn (hr : ReadsItems r T f F) {a : α}
    (he : EndsInElse ((a :: as).map f) → closesTag rest = false) (h : Spaced T as v)
    (ha : f a = .path "else") : closesTag (v ++ rest) = false := by
  cases h with
  | nil => exact he (by simp [EndsInElse, ha])
  | @cons g w v a' as hne hg hw _ =>
    exact Apart.closesTag ⟨g, w ++ (v ++ rest), hne, hg, hr.starts.append hw, by simp⟩

/-- Items with blanks before each are read up to where no further item follows. -/
theorem ReadsItems.spaced (hr : ReadsItems r T f F) (hrest : F rest)
    (hstop : Refuses r (skipBlanks rest)) (he : EndsInElse (as.map f) → closesTag rest = false)
    (h : Spaced T as w) : Reads (Rule.many do Grammar.space; r) (w ++ rest) as rest := by
  induction h with
  | nil => exact (refuses_space_bind hstop).many
  | @cons g w v a as hne hg hw hs ih =>
    rw [List.append_assoc, List.append_assoc]
    refine Reads.many (m := v ++ rest) ?_ ?_ (ih fun h => he (endsInElse_cons h))
    · exact Reads.afterSpace hne hg (hr.starts.notBlank hw)
        (hr.reads hw (hr.next hrest hs) (hr.goesOn he hs))
    · have := List.length_pos_iff.2 hne
      simp only [List.length_append]
      omega

/-- The same for a list that starts with an item. -/
theorem ReadsItems.separated (hr : ReadsItems r T f F) (hrest : F rest)
    (hstop : Refuses r (skipBlanks rest)) {a : α}
    (he : EndsInElse ((a :: as).map f) → closesTag rest = false) (hw : T a w)
    (h : Spaced T as v) :
    Reads (Rule.separated Grammar.space r) (w ++ (v ++ rest)) (a :: as) rest :=
  reads_separated.2 ⟨a, as, v ++ rest, rfl, hr.reads hw (hr.next hrest h) (hr.goesOn he h),
    hr.spaced hrest hstop (fun h => he (endsInElse_cons h)) h⟩

end

/-! ## Parameters of a call -/

theorem Trailing.headIs {α : Type} {T : α → List Char → Prop} {as : List α} {x : List Char}
    (hT : Starts T) (h : Trailing T as w)
    (hx : as = [] → BraceTemplate.headIs isPathChar x = false) :
    BraceTemplate.headIs isPathChar (w ++ x) = false := by
  cases h with
  | nil => exact hx rfl
  | @cons g w v a as hg hne hw hs =>
    rw [List.append_assoc, List.append_assoc]
    by_cases h : g = []
    · subst h
      have hstart := hT.append (s := v ++ x) hw
      have hname := hne rfl
      rw [← headIs_append (s := v ++ x) (ne_nil_of_headIs (hT hw))] at hname
      rw [List.nil_append]
      cases hc : w ++ (v ++ x) with
      | nil => rfl
      | cons c t =>
        rw [hc] at hstart hname
        have hdot := ne_of_isParamStart (d := '.') (by decide) c hstart
        simpa [isPathChar, show isNameChar c = false from hname] using hdot
    · exact notBlank_isPathChar.headIs_of_ne_nil h hg

theorem Trailing.closesTag {α : Type} {T : α → List Char → Prop} {as : List α} {x : List Char}
    (hT : Starts T) (h : Trailing T as w) (hx : as = [] → closesTag x = false) :
    closesTag (w ++ x) = false := by
  cases h with
  | nil => exact hx rfl
  | cons hg _ hw _ =>
    refine closesTag_eq_false ?_
    rw [List.append_assoc, List.append_assoc, skipBlanks_paramStart hg (hT.append hw)]
    exact headIs_of_headIs (hT.append hw) not_isTagEnd_of_isParamStart

/-- The rule reads each written form of a list of parameters behind a name. -/
structure ReadsBehindName (r : Rule (List Param)) (T : List Param → List Char → Prop) : Prop where
  reads : ReadsParams r T
  apart : ∀ {params w x}, T params w → headIs isPathChar x = false →
    headIs isPathChar (w ++ x) = false
  goesOn : ∀ {params w x}, T params w → closesTag x = false → closesTag (w ++ x) = false

theorem reads_parameter (hi : ReadsBehindName rInner inner) {p : Param} (h : ParamText inner p w)
    (hr : Follows rest) (he : p = .path "else" → closesTag rest = false) :
    Reads (Grammar.parameter rInner) (w ++ rest) p rest := by
  unfold Grammar.parameter
  cases h with
  | @path p hp =>
    refine Reads.seq (reads_refuse.2 ⟨hp.introducesNames hr.apart hr.bar, rfl⟩)
      (reads_firstOf_cons.2 (.inl ?_))
    refine Reads.bind (reads_path hp hr.apart ?_) (reads_pure.2 ⟨rfl, rfl⟩)
    rintro ⟨rfl, hc⟩
    rw [he rfl] at hc
    cases hc
  | @literal q text hq hnot =>
    have hne : introducesNames ([q] ++ text.toList ++ [q] ++ rest) = false := by
      rcases hq with rfl | rfl <;> rfl
    have hpath : Refuses Grammar.path ([q] ++ text.toList ++ [q] ++ rest) := by
      refine Refuses.bind (refuses_identifier.2 (.inr ?_))
      rcases hq with rfl | rfl <;> rfl
    refine Reads.seq (reads_refuse.2 ⟨hne, rfl⟩) ?_
    simp only [reads_firstOf_cons]
    exact .inr ⟨Refuses.bind hpath, .inl (Reads.bind (reads_quoted.2 ⟨q, hq, hnot, by simp⟩)
      (reads_pure.2 ⟨rfl, rfl⟩))⟩
  | @call name params b w b' hb hn hw hb' =>
    have hend : Ends (b' ++ ([')'] ++ rest)) := ends_paren hb'
    have hopen : closesTag (b' ++ ([')'] ++ rest)) = false := by
      refine closesTag_eq_false ?_
      rw [skipBlanks_append hb']
      rfl
    simp only [List.append_assoc]
    refine Reads.seq (reads_refuse.2 ⟨rfl, rfl⟩) ?_
    simp only [reads_firstOf_cons]
    refine .inr ⟨Refuses.bind (Refuses.bind (refuses_identifier.2 (.inr rfl))),
      .inr ⟨Refuses.bind (refuses_orElse.2 ⟨refuses_quotedBy rfl, refuses_quotedBy rfl⟩),
        .inl ?_⟩⟩
    exact Reads.seq (reads_literal.2 rfl) <|
      Reads.afterBlanks hb (hn.headIs_blank notBlank_isNameChar) <|
      Reads.bind (reads_name hn (headIs_isNameChar (hi.apart hw hend.apart))
        fun _ => hi.goesOn hw hopen) <|
      Reads.bind (hi.reads hw hend fun _ => hopen) <|
      Reads.afterBlanks hb' rfl <|
      Reads.afterToken <| reads_pure.2 ⟨rfl, rfl⟩

theorem readsItems_parameter (hi : ReadsBehindName rInner inner) :
    ReadsItems (Grammar.parameter rInner) (ParamText inner) id Follows where
  starts := starts_paramText
  reads := reads_parameter hi
  apart := Apart.follows

theorem refuses_parameters (hend : Ends rest) :
    Refuses (Grammar.parameters rInner) (skipBlanks rest) :=
  Refuses.bind hend.refuses_parameter

theorem Ends.reads_parameters (hend : Ends rest) (hi : ReadsBehindName rInner inner) {p : Param}
    {params : List Param} {v : List Char}
    (he : EndsInElse (p :: params) → closesTag rest = false) (hw : ParamText inner p w)
    (hv : Spaced (ParamText inner) params v) :
    Reads (Grammar.parameters rInner) (w ++ (v ++ rest)) (p :: params) rest :=
  (readsItems_parameter hi).separated hend.follows hend.refuses_parameter (by simpa using he) hw hv

theorem reads_parametersAfter {before : Rule Unit} {params : List Param}
    (h : Reads (do before; Grammar.parameters rInner) s params rest) :
    Reads (Grammar.parametersAfter before rInner) s params rest :=
  Reads.bind h.optional (reads_pure.2 ⟨rfl, rfl⟩)

theorem reads_parametersAfter_nil {before : Rule Unit}
    (h : Refuses (do before; Grammar.parameters rInner) s) :
    Reads (Grammar.parametersAfter before rInner) s [] s :=
  Reads.bind h.optional (reads_pure.2 ⟨rfl, rfl⟩)

theorem reads_parametersAfter_space (hi : ReadsBehindName rInner inner) :
    ReadsParams (Grammar.parametersAfter Grammar.space rInner) (Spaced (ParamText inner)) := by
  intro params w rest h hend he
  cases h with
  | nil => exact reads_parametersAfter_nil (refuses_space_bind (refuses_parameters hend))
  | @cons g w v p params hne hg hw hs =>
    rw [List.append_assoc, List.append_assoc]
    refine reads_parametersAfter (Reads.afterSpace hne hg ?_ ?_)
    · exact starts_paramText.notBlank hw
    · exact hend.reads_parameters hi he hw hs

theorem reads_parametersAfter_blanks (hi : ReadsBehindName rInner inner) :
    ReadsParams (Grammar.parametersAfter Grammar.blanks rInner) (Trailing (ParamText inner)) := by
  intro params w rest h hend he
  cases h with
  | nil => exact reads_parametersAfter_nil (refuses_blanks_bind (refuses_parameters hend))
  | @cons g w v p params hg _ hw hs =>
    rw [List.append_assoc, List.append_assoc]
    refine reads_parametersAfter (Reads.afterBlanks hg ?_ ?_)
    · exact starts_paramText.notBlank hw
    · exact hend.reads_parameters hi he hw hs

theorem readsBehindName_innerParams (k : Nat) :
    ReadsBehindName (Grammar.innerParams k) (InnerText k) := by
  induction k with
  | zero => exact ⟨fun _ _ _ h => h.elim, fun h => h.elim, fun h => h.elim⟩
  | succ k ih =>
    exact ⟨reads_parametersAfter_blanks ih,
      fun h hx => Trailing.headIs starts_paramText h fun _ => hx,
      fun h hx => Trailing.closesTag starts_paramText h fun _ => hx⟩

/-! ## Arguments and names -/

theorem reads_argument (hi : ReadsBehindName rInner inner) {a : Argument}
    (h : ArgumentText inner a w) (hr : Follows rest)
    (he : a.value = .path "else" → closesTag rest = false) :
    Reads (Grammar.argument rInner) (w ++ rest) a rest := by
  obtain @⟨key, value, b, b', w, hk, hb, hb', hw⟩ := h
  have hopen : closesTag (b ++ (['='] ++ (b' ++ (w ++ rest)))) = false := by
    refine closesTag_eq_false ?_
    rw [skipBlanks_append hb]
    rfl
  simp only [List.append_assoc]
  exact Reads.bind (reads_name hk (notBlank_isNameChar.headIs hb rfl) fun _ => hopen) <|
    Reads.afterBlanks hb rfl <|
    Reads.afterToken <|
    Reads.afterBlanks hb' (starts_paramText.notBlank hw) <|
    Reads.bind (reads_parameter hi hw hr he) <| reads_pure.2 ⟨rfl, rfl⟩

theorem readsItems_argument (hi : ReadsBehindName rInner inner) :
    ReadsItems (Grammar.argument rInner) (ArgumentText inner) Argument.value Follows where
  starts := starts_argumentText
  reads := reads_argument hi
  apart := Apart.follows

theorem readsItems_name :
    ReadsItems Grammar.identifier NameText .path fun x => headIs isNameChar x = false where
  starts := starts_nameText
  reads := by
    rintro name _ x ⟨hn, rfl⟩ hx he
    exact reads_name hn hx fun h => he (congrArg Param.path h)
  apart h := h.headIs notBlank_isNameChar

end BraceTemplate
