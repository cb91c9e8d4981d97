import BraceTemplate.Proofs.Grammar.Complete.Blocks

/-!
# What is read is written

Every rule of the grammar reads a written form of its value (`Forms`). The rules for lists,
parameters and tags are treated for any rule for what stands inside, and the induction on the
number of levels closes the circle.
-/

namespace BraceTemplate

open Rule

/-- The rule reads nothing but texts that write the value. -/
def Forms {α : Type} (r : Rule α) (T : α → List Char → Prop) : Prop :=
  ∀ ⦃s a rest⦄, Reads r s a rest → ∃ w, T a w ∧ s = w ++ rest

/-- The same for a rule that is tried behind a name only. -/
def FormsBehindName {α : Type} (r : Rule α) (T : α → List Char → Prop) : Prop :=
  ∀ ⦃s a rest⦄, headIs isNameChar s = false → Reads r s a rest → ∃ w, T a w ∧ s = w ++ rest

variable {s rest : List Char} {rInner : Rule (List Param)} {rBody : Rule Block}
variable {inner : List Param → List Char → Prop} {body : Block → List Char → Prop}

/-! ## Lists -/

theorem Forms.spaced {α : Type} {r : Rule α} {T : α → List Char → Prop} (h : Forms r T) :
    Forms (Rule.many do Grammar.space; r) (Spaced T) := by
  intro s as rest hr
  induction as generalizing s with
  | nil =>
    obtain ⟨-, rfl⟩ := reads_many_nil.1 hr
    exact ⟨[], .nil, rfl⟩
  | cons a as ih =>
    obtain ⟨m, h1, -, h2⟩ := reads_many_cons.1 hr
    simp only [reads_bind, reads_space] at h1
    obtain ⟨-, m', ⟨g, hne, hg, -, rfl⟩, ha⟩ := h1
    obtain ⟨w, hw, rfl⟩ := h ha
    obtain ⟨v, hv, rfl⟩ := ih h2
    exact ⟨_, .cons hne hg hw hv, by simp⟩

theorem Forms.separated {α : Type} {r : Rule α} {T : α → List Char → Prop} (h : Forms r T)
    {as : List α} (hr : Reads (Rule.separated Grammar.space r) s as rest) :
    ∃ a others w v, as = a :: others ∧ T a w ∧ Spaced T others v ∧ s = w ++ (v ++ rest) := by
  obtain ⟨a, others, m, rfl, ha, ho⟩ := reads_separated.1 hr
  obtain ⟨w, hw, rfl⟩ := h ha
  obtain ⟨v, hv, rfl⟩ := h.spaced ho
  exact ⟨a, others, w, v, rfl, hw, hv, rfl⟩

theorem forms_name : Forms Grammar.identifier NameText := by
  intro s name rest h
  obtain ⟨hn, -, -, rfl⟩ := reads_identifier.1 h
  exact ⟨_, ⟨hn, rfl⟩, rfl⟩

/-! ## Parameters -/

theorem forms_parameter (hi : FormsBehindName rInner inner) :
    Forms (Grammar.parameter rInner) (ParamText inner) := by
  intro s p rest h
  unfold Grammar.parameter at h
  simp only [reads_bind, reads_refuse] at h
  obtain ⟨-, m, ⟨-, rfl⟩, h⟩ := h
  obtain ⟨r, hr, h⟩ := exists_of_reads_firstOf h
  simp only [List.mem_cons, List.not_mem_nil, or_false] at hr
  rcases hr with rfl | rfl | rfl
  · simp only [reads_bind, reads_pure] at h
    obtain ⟨p, m, hp, rfl, rfl⟩ := h
    obtain ⟨hpath, -, rfl⟩ := isPath_of_reads hp
    exact ⟨_, .path hpath, rfl⟩
  · simp only [reads_bind, reads_quoted, reads_pure] at h
    obtain ⟨text, m, ⟨q, hq, hnot, rfl⟩, rfl, rfl⟩ := h
    exact ⟨_, .literal hq hnot, by simp⟩
  · unfold Grammar.subexpression at h
    simp only [reads_bind, reads_literal, reads_blanks, reads_identifier, reads_token,
      reads_pure] at h
    obtain ⟨-, m, rfl, -, m₁, ⟨b, hb, -, rfl⟩, name, m₂, ⟨hn, hm, -, rfl⟩, params, m₃, hp,
      -, m₄, ⟨b', hb', -, rfl⟩, -, m₅, rfl, rfl, rfl⟩ := h
    obtain ⟨w, hw, rfl⟩ := hi hm hp
    exact ⟨_, .call hb hn hw hb', by simp⟩

/-- A list behind a name, with the first item apart from the name by blanks where it must be. -/
theorem trailing_of_reads {α : Type} {r : Rule α} {T : α → List Char → Prop} (h : Forms r T)
    {as : List α} (hs : headIs isNameChar s = false)
    (hr : Reads (do Grammar.blanks; Rule.separated Grammar.space r) s as rest) :
    ∃ w, Trailing T as w ∧ s = w ++ rest := by
  simp only [reads_bind, reads_blanks, reads_separated] at hr
  obtain ⟨-, m, ⟨g, hg, -, rfl⟩, a, others, m', rfl, ha, ho⟩ := hr
  obtain ⟨w, hw, rfl⟩ := h ha
  obtain ⟨v, hv, rfl⟩ := h.spaced ho
  refine ⟨_, .cons hg ?_ hw hv, by simp⟩
  rintro rfl
  exact headIs_of_append hs

theorem trailing_of_reads_parametersAfter (hi : FormsBehindName rInner inner)
    {params : List Param} (hs : headIs isNameChar s = false)
    (h : Reads (Grammar.parametersAfter Grammar.blanks rInner) s params rest) :
    ∃ w, Trailing (ParamText inner) params w ∧ s = w ++ rest := by
  unfold Grammar.parametersAfter at h
  simp only [reads_bind, reads_optional, reads_pure] at h
  obtain ⟨o, m, ⟨as, rfl, h⟩ | ⟨rfl, -, rfl⟩, rfl, rfl⟩ := h
  · exact trailing_of_reads (forms_parameter hi) hs (reads_bind.2 h)
  · exact ⟨[], .nil, rfl⟩

theorem forms_parametersAfter_space (hi : FormsBehindName rInner inner) :
    Forms (Grammar.parametersAfter Grammar.space rInner) (Spaced (ParamText inner)) := by
  intro s params rest h
  unfold Grammar.parametersAfter Grammar.parameters at h
  simp only [reads_bind, reads_optional, reads_space, reads_separated, reads_pure] at h
  obtain ⟨o, m, ⟨as, rfl, -, m', ⟨g, hne, hg, -, rfl⟩, a, others, m'', rfl, ha, ho⟩ |
    ⟨rfl, -, rfl⟩, rfl, rfl⟩ := h
  · obtain ⟨w, hw, rfl⟩ := forms_parameter hi ha
    obtain ⟨v, hv, rfl⟩ := (forms_parameter hi).spaced ho
    exact ⟨_, .cons hne hg hw hv, by simp⟩
  · exact ⟨[], .nil, rfl⟩

theorem forms_argument (hi : FormsBehindName rInner inner) :
    Forms (Grammar.argument rInner) (ArgumentText inner) := by
  intro s arg rest h
  unfold Grammar.argument at h
  simp only [reads_bind, reads_identifier, reads_blanks, reads_token, reads_pure] at h
  obtain ⟨key, m, ⟨hk, -, -, rfl⟩, -, m₁, ⟨b, hb, -, rfl⟩, -, m₂, rfl, -, m₃,
    ⟨b', hb', -, rfl⟩, value, m₄, hv, rfl, rfl⟩ := h
  obtain ⟨w, hw, rfl⟩ := forms_parameter hi hv
  exact ⟨_, .mk hk hb hb' hw, by simp⟩

/-! ## The variable `else` -/

/-- The variable `else` is not read where the tag ends. -/
theorem closesTag_of_reads_else
    (h : Reads (Grammar.parameter rInner) s (.path "else") rest) : closesTag rest = false := by
  unfold Grammar.parameter at h
  simp only [reads_bind, reads_refuse] at h
  obtain ⟨-, m, ⟨-, rfl⟩, h⟩ := h
  obtain ⟨r, hr, h⟩ := exists_of_reads_firstOf h
  simp only [List.mem_cons, List.not_mem_nil, or_false] at hr
  rcases hr with rfl | rfl | rfl
  · simp only [reads_bind, reads_pure, Param.path.injEq] at h
    obtain ⟨p, m, hp, rfl, rfl⟩ := h
    simpa using (isPath_of_reads hp).2.1
  · simp [reads_bind, reads_pure, Param.literal] at h
  · unfold Grammar.subexpression at h
    simp [reads_bind, reads_pure, Param.call] at h

/-- In a list of items with parameters, the last of which is the variable `else`, no tag ends
after it. -/
theorem closesTag_of_reads_spaced {α : Type} {r : Rule α} {f : α → Param} {as : List α}
    (hr : ∀ {s a rest}, Reads r s a rest → f a = .path "else" → closesTag rest = false)
    (h : Reads (Rule.many do Grammar.space; r) s as rest) (he : EndsInElse (as.map f)) :
    closesTag rest = false := by
  induction as generalizing s with
  | nil => simp [EndsInElse] at he
  | cons a as ih =>
    obtain ⟨m, h1, -, h2⟩ := reads_many_cons.1 h
    cases as with
    | nil =>
      obtain ⟨-, rfl⟩ := reads_many_nil.1 h2
      obtain ⟨-, m', -, ha⟩ := reads_bind.1 h1
      exact hr ha (by simpa [EndsInElse] using he)
    | cons a' as => exact ih h2 (by simpa [EndsInElse] using he)

theorem closesTag_of_reads_separated {α : Type} {r : Rule α} {f : α → Param} {as : List α}
    (hr : ∀ {s a rest}, Reads r s a rest → f a = .path "else" → closesTag rest = false)
    (h : Reads (Rule.separated Grammar.space r) s as rest) (he : EndsInElse (as.map f)) :
    closesTag rest = false := by
  obtain ⟨a, others, m, rfl, ha, ho⟩ := reads_separated.1 h
  cases others with
  | nil =>
    obtain ⟨-, rfl⟩ := reads_many_nil.1 ho
    exact hr ha (by simpa [EndsInElse] using he)
  | cons a' others => exact closesTag_of_reads_spaced hr ho (by simpa [EndsInElse] using he)

theorem closesTag_of_reads_parametersAfter {before : Rule Unit} {params : List Param}
    (h : Reads (Grammar.parametersAfter before rInner) s params rest) (he : EndsInElse params) :
    closesTag rest = false := by
  unfold Grammar.parametersAfter at h
  simp only [reads_bind, reads_optional, reads_pure] at h
  obtain ⟨o, m, ⟨as, rfl, -, m', -, h⟩ | ⟨rfl, -, rfl⟩, rfl, rfl⟩ := h
  · refine closesTag_of_reads_separated (f := id) (fun ha hp => ?_) h (by simpa using he)
    obtain rfl : _ = Param.path "else" := hp
    exact closesTag_of_reads_else ha
  · simp [EndsInElse] at he

theorem closesTag_of_reads_arguments {args : List Argument}
    (h : Reads (Grammar.arguments rInner) s args rest)
    (he : EndsInElse (args.map Argument.value)) : closesTag rest = false := by
  refine closesTag_of_reads_separated (fun {s a rest} ha hp => ?_) h he
  unfold Grammar.argument at ha
  simp only [reads_bind, reads_pure] at ha
  obtain ⟨key, m, -, -, m₁, -, -, m₂, -, -, m₃, -, value, m₄, hv, rfl, rfl⟩ := ha
  obtain rfl : value = .path "else" := hp
  exact closesTag_of_reads_else hv

/-! ## Tags -/

section
variable {α : Type} {output : Output} {f : Bool → Rule α} {a : α}

theorem exists_of_reads_tagHead
    (h : Reads (do Grammar.literal output.opening; let left ← Grammar.tilde; f left) s a rest) :
    ∃ l m, s = output.opening ++ (mark l ++ m) ∧ Reads (f l) m a rest := by
  simp only [reads_bind, reads_literal, reads_tilde] at h
  obtain ⟨-, m, rfl, l, m', ⟨rfl, -⟩, h⟩ := h
  exact ⟨l, m', rfl, h⟩

theorem exists_of_reads_tagEnd
    (h : Reads (do Grammar.blanks; let right ← Grammar.tilde; Grammar.close output; f right)
      s a rest) :
    ∃ b r m, Blanks b ∧ s = b ++ (mark r ++ (output.closing ++ m)) ∧ Reads (f r) m a rest := by
  simp only [reads_bind, reads_blanks, reads_tilde, reads_close] at h
  obtain ⟨-, m, ⟨b, hb, -, rfl⟩, r, m', ⟨rfl, -⟩, -, m'', rfl, h⟩ := h
  exact ⟨b, r, m'', hb, rfl, h⟩

theorem exists_of_reads_blanks {r : Rule α} (h : Reads (do Grammar.blanks; r) s a rest) :
    ∃ b m, Blanks b ∧ s = b ++ m ∧ Reads r m a rest := by
  simp only [reads_bind, reads_blanks] at h
  obtain ⟨-, m, ⟨b, hb, -, rfl⟩, h⟩ := h
  exact ⟨b, m, hb, rfl, h⟩

theorem exists_of_reads_space {r : Rule α} (h : Reads (do Grammar.space; r) s a rest) :
    ∃ b m, b ≠ [] ∧ Blanks b ∧ s = b ++ m ∧ Reads r m a rest := by
  simp only [reads_bind, reads_space] at h
  obtain ⟨-, m, ⟨b, hne, hb, -, rfl⟩, h⟩ := h
  exact ⟨b, m, hne, hb, rfl, h⟩

theorem exists_of_reads_token {c : List Char} {r : Rule α}
    (h : Reads (do Grammar.token c; r) s a rest) : ∃ m, s = c ++ m ∧ Reads r m a rest := by
  simp only [reads_bind, reads_token] at h
  obtain ⟨-, m, rfl, h⟩ := h
  exact ⟨m, rfl, h⟩

end

theorem written_of_reads_reference {output : Output} {n : Node}
    (h : Reads (Grammar.reference output) s n rest) :
    ∃ w, TagText inner body n w ∧ s = w ++ rest := by
  obtain ⟨l, m, rfl, h1⟩ := exists_of_reads_tagHead h
  obtain ⟨b, m, hb, rfl, h2⟩ := exists_of_reads_blanks h1
  obtain ⟨path, m, hp, h3⟩ := reads_bind.1 h2
  obtain ⟨b', r, m, hb', rfl, h4⟩ := exists_of_reads_tagEnd h3
  obtain ⟨rfl, rfl⟩ := reads_pure.1 h4
  obtain ⟨hpath, helse, rfl⟩ := isPath_of_reads hp
  refine ⟨_, .reference hb hpath ?_ hb', by simp⟩
  rintro rfl
  exact helse ⟨rfl, closesTag_closing hb' r output⟩

theorem written_of_reads_helper (hi : FormsBehindName rInner inner) {output : Output} {n : Node}
    (hr : Refuses (Grammar.reference output) s)
    (h : Reads (Grammar.helper rInner output) s n rest) :
    ∃ w, TagText inner body n w ∧ s = w ++ rest := by
  obtain ⟨l, m, rfl, h1⟩ := exists_of_reads_tagHead h
  obtain ⟨b, m, hb, rfl, h2⟩ := exists_of_reads_blanks h1
  obtain ⟨name, m, hname, h3⟩ := reads_bind.1 h2
  obtain ⟨params, m, hp, h4⟩ := reads_bind.1 h3
  obtain ⟨b', r, m, hb', rfl, h5⟩ := exists_of_reads_tagEnd h4
  obtain ⟨rfl, rfl⟩ := reads_pure.1 h5
  obtain ⟨hn, hm, helse, rfl⟩ := reads_identifier.1 hname
  obtain ⟨w, hw, rfl⟩ := trailing_of_reads_parametersAfter hi hm hp
  refine ⟨_, .helper hb hn ?_ (fun he => ?_) hw hb', by simp⟩
  · -- a name alone would have been read as a reference
    rintro rfl
    cases hw
    refine (reads_reference hb (IsPath.of_isName hn) (fun he => helse ⟨he, ?_⟩) hb').not_refuses hr
    exact closesTag_closing hb' r output
  · have := closesTag_of_reads_parametersAfter hp he
    rw [closesTag_closing hb' r output] at this
    cases this

theorem written_of_reads_partialTag (hi : FormsBehindName rInner inner) {n : Node}
    (h : Reads (Grammar.partialTag rInner) s n rest) :
    ∃ w, TagText inner body n w ∧ s = w ++ rest := by
  obtain ⟨l, m, rfl, h1⟩ := exists_of_reads_tagHead h
  obtain ⟨m, rfl, h2⟩ := exists_of_reads_token h1
  obtain ⟨b, m, hb, rfl, h3⟩ := exists_of_reads_blanks h2
  obtain ⟨name, m, hname, h4⟩ := reads_bind.1 h3
  obtain ⟨g, m, hg, rfl, h5⟩ := exists_of_reads_blanks h4
  obtain ⟨o, m, hargs, h6⟩ := reads_bind.1 h5
  obtain ⟨b', r, m, hb', rfl, h7⟩ := exists_of_reads_tagEnd h6
  obtain ⟨hn, hm, helse, rfl⟩ := reads_partialName.1 hname
  rcases reads_optional.1 hargs with ⟨args, rfl, ho⟩ | ⟨rfl, -, rfl⟩
  · obtain ⟨a, others, w, v, rfl, hw, hv, rfl⟩ := (forms_argument hi).separated ho
    obtain ⟨rfl, rfl⟩ := reads_pure.1 h7
    have hgap : g ≠ [] := by
      rintro rfl
      obtain ⟨hk, -, -, -⟩ := hw
      simp only [List.nil_append, List.append_assoc] at hm
      rw [hk.headIs_mono fun h => by simp [isPartialNameChar, h]] at hm
      cases hm
    refine ⟨_, .boundPartial hb hn (by simp) (fun he => ?_) (.cons hgap hg hw hv) hb', by simp⟩
    have := closesTag_of_reads_arguments ho he
    rw [closesTag_closing hb' r .escaped] at this
    cases this
  · obtain ⟨rfl, rfl⟩ := reads_pure.1 h7
    have hgap : Blanks (g ++ b') := fun c hc => (List.mem_append.1 hc).elim (hg c) (hb' c)
    refine ⟨_, .plainPartial hb hn (fun he => helse ⟨he, ?_⟩) hgap, by simp⟩
    rw [← List.append_assoc]
    exact closesTag_closing hgap r .escaped

/-! ## Blocks -/

/-- The rule reads nothing but texts that write the block, where text is left to read. -/
def FormsBody (r : Rule Block) (T : Block → List Char → Prop) : Prop :=
  ∀ ⦃s b rest⦄, rest ≠ [] → Reads r s b rest → ∃ w, T b w ∧ s = w ++ rest

theorem eq_of_reads_closingTag {name : String} {t : Trim}
    (h : Reads (Grammar.closingTag name) s t rest) : s = closingText name t ++ rest := by
  unfold Grammar.closingTag at h
  simp only [reads_bind, reads_literal, reads_tilde, reads_token, reads_expect, reads_close,
    reads_pure] at h
  obtain ⟨-, m, rfl, l, m₁, ⟨rfl, -⟩, -, m₂, rfl, -, m₃, rfl, r, m₄, ⟨rfl, -⟩, -, m₅, rfl, rfl,
    rfl⟩ := h
  simp [closingText]

theorem closingText_ne_nil {name : String} {t : Trim} : closingText name t ++ rest ≠ [] := by
  simp [closingText, Output.opening]

theorem otherwiseText_of_reads_markedElse (hbody : FormsBody rBody body)
    {o : Option (Trim × Block)} (hrest : rest ≠ [])
    (h : Reads (Rule.optional (Grammar.markedElse rBody)) s o rest) :
    ∃ w, OtherwiseText body (o.map (·.2)) ((o.map (·.1)).getD .none) w ∧ s = w ++ rest := by
  unfold Grammar.markedElse at h
  simp only [reads_bind, reads_optional, reads_literal, reads_tilde, reads_blanks, reads_token,
    reads_close, reads_pure] at h
  obtain ⟨_, rfl, -, m, rfl, l, m₁, ⟨rfl, -⟩, -, m₂, ⟨b, hb, -, rfl⟩, -, m₃, rfl, -, m₄,
    ⟨b', hb', -, rfl⟩, r, m₅, ⟨rfl, -⟩, -, m₆, rfl, otherwise, m₇, hu, rfl, rfl⟩ |
    ⟨rfl, -, rfl⟩ := h
  · obtain ⟨u, hu', rfl⟩ := hbody hrest hu
    exact ⟨_, .some hb hb' hu', by simp⟩
  · exact ⟨[], .none, rfl⟩

theorem otherwiseText_of_reads_plainElse (hbody : FormsBody rBody body) {o : Option Block}
    (hrest : rest ≠ []) (h : Reads (Rule.optional (Grammar.plainElse rBody)) s o rest) :
    ∃ w, OtherwiseText body o .none w ∧ s = w ++ rest := by
  unfold Grammar.plainElse at h
  simp only [reads_bind, reads_optional, reads_literal, reads_blanks, reads_token,
    reads_close] at h
  obtain ⟨otherwise, rfl, -, m, rfl, -, m₁, ⟨b, hb, -, rfl⟩, -, m₂, rfl, -, m₃,
    ⟨b', hb', -, rfl⟩, -, m₄, rfl, hu⟩ | ⟨rfl, -, rfl⟩ := h
  · obtain ⟨u, hu', rfl⟩ := hbody hrest hu
    exact ⟨_, .some (l := false) (r := false) hb hb' hu', by simp⟩
  · exact ⟨[], .none, rfl⟩

theorem written_of_reads_blockTag (hi : FormsBehindName rInner inner)
    (hbody : FormsBody rBody body) {n : Node}
    (h : Reads (Grammar.blockTag rInner rBody) s n rest) :
    ∃ w, TagText inner body n w ∧ s = w ++ rest := by
  obtain ⟨l, m, rfl, h1⟩ := exists_of_reads_tagHead h
  obtain ⟨m, rfl, h2⟩ := exists_of_reads_token h1
  obtain ⟨name, m, hname, h3⟩ := reads_bind.1 h2
  obtain ⟨params, m, hp, h4⟩ := reads_bind.1 h3
  obtain ⟨b, r, m, hb, rfl, h5⟩ := exists_of_reads_tagEnd h4
  obtain ⟨first, m, hu, h6⟩ := reads_bind.1 h5
  obtain ⟨second, m, hv, h7⟩ := reads_bind.1 h6
  obtain ⟨closing, m, hc, h8⟩ := reads_bind.1 h7
  obtain ⟨rfl, rfl⟩ := reads_pure.1 h8
  obtain rfl := eq_of_reads_closingTag hc
  obtain ⟨v, hv', rfl⟩ := otherwiseText_of_reads_markedElse hbody closingText_ne_nil hv
  obtain ⟨u, hu', rfl⟩ := hbody (List.append_ne_nil_of_right_ne_nil _ closingText_ne_nil) hu
  obtain ⟨w, hw, rfl⟩ := forms_parametersAfter_space hi hp
  obtain ⟨hn, -, helse, rfl⟩ := reads_identifier.1 hname
  refine ⟨_, .block hn ?_ (fun he => ?_) hw hb hu' hv', by simp⟩
  · rintro rfl he
    cases hw
    exact helse ⟨he, closesTag_closing hb r .escaped⟩
  · have := closesTag_of_reads_parametersAfter hp he
    rw [closesTag_closing hb r .escaped] at this
    cases this

theorem written_of_reads_binderTag (hi : FormsBehindName rInner inner)
    (hbody : FormsBody rBody body) {n : Node}
    (h : Reads (Grammar.binderTag rInner rBody) s n rest) :
    ∃ w, TagText inner body n w ∧ s = w ++ rest := by
  obtain ⟨l, m, rfl, h1⟩ := exists_of_reads_tagHead h
  obtain ⟨m, rfl, h2⟩ := exists_of_reads_token h1
  obtain ⟨name, m, hname, h3⟩ := reads_bind.1 h2
  obtain ⟨g', m, hg0', hg', rfl, h4⟩ := exists_of_reads_space h3
  obtain ⟨params, m, hp, h5⟩ := reads_bind.1 h4
  obtain ⟨g, m, hg0, hg, rfl, h6⟩ := exists_of_reads_space h5
  obtain ⟨m, rfl, h7⟩ := exists_of_reads_token h6
  obtain ⟨b₁, m, hb₁, rfl, h8⟩ := exists_of_reads_blanks h7
  obtain ⟨m, rfl, h9⟩ := exists_of_reads_token h8
  obtain ⟨b₂, m, hb₂, rfl, h10⟩ := exists_of_reads_blanks h9
  obtain ⟨names, m, hnames, h11⟩ := reads_bind.1 h10
  obtain ⟨b₃, m, hb₃, rfl, h12⟩ := exists_of_reads_blanks h11
  obtain ⟨m, rfl, h13⟩ := exists_of_reads_token h12
  obtain ⟨b₄, r, m, hb₄, rfl, h14⟩ := exists_of_reads_tagEnd h13
  obtain ⟨first, m, hu, h15⟩ := reads_bind.1 h14
  obtain ⟨otherwise, m, hv, h16⟩ := reads_bind.1 h15
  obtain ⟨closing, m, hc, h17⟩ := reads_bind.1 h16
  obtain ⟨rfl, rfl⟩ := reads_pure.1 h17
  obtain rfl := eq_of_reads_closingTag hc
  obtain ⟨e, he, rfl⟩ := otherwiseText_of_reads_plainElse hbody closingText_ne_nil hv
  obtain ⟨u, hu', rfl⟩ := hbody (List.append_ne_nil_of_right_ne_nil _ closingText_ne_nil) hu
  obtain ⟨x, names, _, v, rfl, ⟨hx, rfl⟩, hnames', rfl⟩ := forms_name.separated hnames
  obtain ⟨p, params, w, ws, rfl, hw, hws, rfl⟩ := (forms_parameter hi).separated hp
  obtain ⟨hn, -, -, rfl⟩ := reads_identifier.1 hname
  exact ⟨_, .binder hn (by simp) (.cons hg0' hg' hw hws) hg0 hg hb₁ hb₂ hx hnames' hb₃ hb₄ hu' he,
    by simp⟩

/-! ## Templates -/

theorem written_of_reads_node (hi : FormsBehindName rInner inner) (hbody : FormsBody rBody body)
    {n : Node} (h : Reads (Grammar.node rInner rBody) s n rest) :
    Reads Grammar.content s n rest ∨
      Refuses Grammar.content s ∧ ∃ w, TagText inner body n w ∧ s = w ++ rest := by
  simp only [Grammar.node, reads_firstOf_cons] at h
  rcases h with h | ⟨hc, h⟩
  · exact .inl h
  refine .inr ⟨hc, ?_⟩
  rcases h with h | ⟨hr, h | ⟨hr', h | ⟨-, h | ⟨-, h | ⟨-, h | ⟨-, h | ⟨-, h⟩⟩⟩⟩⟩⟩⟩
  · exact written_of_reads_reference h
  · exact written_of_reads_reference h
  · exact written_of_reads_helper hi hr h
  · exact written_of_reads_helper hi hr' h
  · exact written_of_reads_partialTag hi h
  · exact written_of_reads_blockTag hi hbody h
  · exact written_of_reads_binderTag hi hbody h
  · exact (not_reads_fail h).elim

theorem beforeTag_beforeTag (s : List Char) :
    Grammar.beforeTag (Grammar.beforeTag s) = Grammar.beforeTag s := by
  fun_induction Grammar.beforeTag s with
  | case1 => rfl
  | case2 c s h ih =>
    rw [beforeTag_cons, ih]
    rintro rfl
    refine headIs_of_append (s := Grammar.fromTag s) ?_
    rw [Grammar.beforeTag_append_fromTag]
    cases s with
    | nil => rfl
    | cons d s => simpa using fun hd : d = '{' => h s rfl (by rw [hd])
  | case3 => rfl

/-- Text stops at the end or at two opening braces, and then not behind another. -/
theorem fromTag_cases (s : List Char) :
    Grammar.fromTag s = [] ∨ (Grammar.beforeTag s).getLast? ≠ some '{' ∧
      ∃ u, Grammar.fromTag s = Output.escaped.opening ++ u := by
  fun_induction Grammar.beforeTag s with
  | case1 s => exact .inr ⟨by simp, s, rfl⟩
  | case2 c s h ih =>
    rw [Grammar.fromTag]
    · rcases ih with hnil | ⟨hlast, u, hu⟩
      · exact .inl hnil
      refine .inr ⟨?_, u, hu⟩
      cases hb : Grammar.beforeTag s with
      | nil =>
        have hs := Grammar.beforeTag_append_fromTag s
        rw [hb, hu] at hs
        simpa using fun hc : c = '{' => h ('{' :: u) hc hs.symm
      | cons d t =>
        rw [hb] at hlast
        rwa [List.getLast?_cons_cons]
    · exact h
  | case3 => exact .inl rfl

theorem content_of_reads {n : Node} (h : Reads Grammar.content s n rest) :
    ∃ t, n = .content t ∧ IsContent t ∧ s = t.toList ++ rest ∧
      (rest = [] ∨ t.toList.getLast? ≠ some '{' ∧ ∃ u, rest = Output.escaped.opening ++ u) := by
  rw [Reads, content_eq] at h
  split at h
  · cases h
  · rename_i hne
    cases h
    refine ⟨_, rfl, ?_⟩
    simp only [IsContent, String.toList_ofList]
    exact ⟨⟨hne, beforeTag_beforeTag s⟩, (Grammar.beforeTag_append_fromTag s).symm,
      fromTag_cases s⟩

theorem getLast?_tagText {n : Node} {w : List Char} (h : TagText inner body n w) :
    w.getLast? = some '}' := by
  have hclosing : ∀ v {output : Output}, (v ++ output.closing).getLast? = some '}' := by
    intro v output
    rw [List.getLast?_append]
    cases output <;> rfl
  cases h with
  | reference | helper | plainPartial | boundPartial => exact hclosing _
  | block | binder =>
    rw [closingText, ← List.append_assoc]
    exact hclosing _

theorem getLast?_append_ne {c : Char} {w v : List Char} (hw : w.getLast? ≠ some c)
    (hv : v.getLast? ≠ some c) : (w ++ v).getLast? ≠ some c := by
  rw [List.getLast?_append]
  cases h : v.getLast? with
  | none => exact hw
  | some d => rwa [h] at hv

/-- The nodes of a block that are read have a written form. Where text is left, they do not end
in an opening brace. -/
theorem blockText_of_reads (hi : FormsBehindName rInner inner) (hbody : FormsBody rBody body)
    {b : Block} (h : Reads (Rule.many (Grammar.node rInner rBody)) s b rest) :
    ∃ w, BlockText (TagText inner body) b w ∧ s = w ++ rest ∧
      (rest = [] ∨ w.getLast? ≠ some '{') := by
  induction b generalizing s with
  | nil =>
    obtain ⟨-, rfl⟩ := reads_many_nil.1 h
    exact ⟨[], .nil, rfl, .inr (by simp)⟩
  | cons n b ih =>
    obtain ⟨m, hn, -, hm⟩ := reads_many_cons.1 h
    obtain ⟨v, hv, rfl, hlast⟩ := ih hm
    rcases written_of_reads_node hi hbody hn with hc | ⟨-, w, hw, rfl⟩
    · obtain ⟨t, rfl, ht, rfl, hnext⟩ := content_of_reads hc
      cases b with
      | nil =>
        cases hv
        exact ⟨_, .content ht, by simp, hnext.imp_right And.left⟩
      | cons n' b =>
        -- text ends where no text can start, so the next node is a tag
        obtain ⟨m, hn', -⟩ := reads_many_cons.1 hm
        rcases written_of_reads_node hi hbody hn' with hc' | ⟨-, w', hw', -⟩
        · refine (hc'.not_refuses ?_).elim
          rcases hnext with h | ⟨-, u, h⟩
          · rw [h]
            rfl
          · rw [h]
            exact refuses_content .escaped u
        · obtain _ | _ | _ | ⟨hw, hv⟩ := hv
          · cases hw'
          · cases hw'
          · obtain ⟨u, rfl⟩ := opening_of_tagText hw
            have ht' := hnext.resolve_left (by simp [Output.opening])
            refine ⟨_, .contentTag ht ht'.1 hw hv, by simp, hlast.imp_right fun hlast => ?_⟩
            rw [List.append_assoc]
            exact getLast?_append_ne ht'.1 hlast
    · refine ⟨_, .tag hw hv, by simp, hlast.imp_right fun hlast => ?_⟩
      exact getLast?_append_ne (by simp [getLast?_tagText hw]) hlast

theorem formsBehindName_innerParams (k : Nat) :
    FormsBehindName (Grammar.innerParams k) (InnerText k) := by
  induction k with
  | zero => exact fun _ _ _ _ h => by cases h
  | succ k ih => exact fun _ _ _ hs h => trailing_of_reads_parametersAfter ih hs h

theorem formsBody_blockBody (k : Nat) : FormsBody (Grammar.blockBody k) (BodyText k) := by
  induction k with
  | zero => exact fun _ _ _ _ h => by cases h
  | succ k ih =>
    intro s b rest hrest h
    obtain ⟨w, hw, rfl, hlast⟩ := blockText_of_reads (formsBehindName_innerParams k) ih h
    exact ⟨w, ⟨hw, hlast.resolve_left hrest⟩, rfl⟩

/-- The written forms of a block are the texts it is read from. -/
theorem parseChars_eq_ok_iff {k : Nat} {b : Block} :
    parseChars k s = .ok b ↔ Written k b s := by
  refine ⟨fun h => ?_, parseChars_of_written⟩
  unfold parseChars at h
  split at h
  · rename_i hitems
    cases h
    obtain ⟨w, hw, rfl, -⟩ := blockText_of_reads (formsBehindName_innerParams k)
      (formsBody_blockBody k) (show Reads (Grammar.items k) s b [] by rw [Reads, hitems])
    rwa [List.append_nil]
  all_goals cases h

/-- A tag is a template by itself where it is written. -/
theorem parseWithin_eq_singleton_iff {limit : Nat} {text : String} {n : Node}
    (hn : ∀ t, n ≠ .content t) : parseWithin limit text = .ok [n] ↔
      TagText (InnerText limit) (BodyText limit) n text.toList := by
  rw [parseWithin, parseChars_eq_ok_iff]
  constructor
  · generalize text.toList = w
    intro h
    cases h with
    | content => exact (hn _ rfl).elim
    | tag hw hnil =>
      cases hnil
      rwa [List.append_nil]
  · intro h
    rw [← List.append_nil text.toList]
    exact .tag h .nil

/-- A text that writes a tag is read as that tag alone. -/
theorem parseWithin_of_tagText {limit : Nat} {text : String} {n : Node} {w : List Char}
    (h : TagText (InnerText limit) (BodyText limit) n w) (htext : text.toList = w) :
    parseWithin limit text = .ok [n] := by
  subst htext
  exact (parseWithin_eq_singleton_iff fun t ht => by subst ht; cases h).2 h

end BraceTemplate
