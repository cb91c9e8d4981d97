import BraceTemplate.Proofs.Grammar.Awaited.Params

/-!
# Fixed texts that tags wait for

With a missed token in its place, a tag is complete or the rules for a node run out of text. The
braces at the end of a tag alone can bring less: where they end the head of a block, the tag is
complete once the blocks that are open have been closed (`closings`), and behind the word `else`
they may take the word away from the tag (`ElseAtEnd`).
-/

namespace BraceTemplate

open Rule

variable {x u v w g : List Char} {rInner : Rule (List Param)} {rBody : Rule Block}
variable {inner : List Param → List Char → Prop} {body : Block → List Char → Prop}
variable {T : List Char → Prop} {output : Output} {l r : Bool} {name : String}

/-! ## What a missed token brings -/

/-- The tags that close the blocks of these names, the innermost one first. -/
def closings (names : List String) : List Char :=
  names.flatMap fun name => closingText name .none

theorem closings_append (names names' : List String) :
    closings (names ++ names') = closings names ++ closings names' :=
  List.flatMap_append

theorem closings_singleton (name : String) : closings [name] = closingText name .none :=
  List.flatMap_singleton _ _

/-- What follows starts a word of its own. -/
def WordStart (u : List Char) : Prop :=
  ∃ c, u.getLast? = some c ∧ isPathChar c = false ∧ c ≠ '/'

/-- The text ends in the word `else` and the end of a tag. -/
def ElseAtEnd (x : List Char) : Prop :=
  ∃ (u b : List Char) (r : Bool) (output : Output), WordStart u ∧ Blanks b ∧
    x = u ++ (elseWord ++ (b ++ (mark r ++ output.closing)))

/-- What becomes of the text `x`, which ends in the missed token `w`: it leads `further`, or the
token is the end of a tag. Then `x` is complete with some closing tags, or ends in `else`. -/
inductive Resolved (further : Prop) (T : List Char → Prop) (w x : List Char) : Prop
  | further : further → Resolved further T w x
  | closed {output : Output} (names : List String) :
      w = output.closing → T (x ++ closings names) → Resolved further T w x
  | vetoed {output : Output} : w = output.closing → ElseAtEnd x → Resolved further T w x

theorem WordStart.append_left (h : WordStart u) : WordStart (v ++ u) := by
  obtain ⟨c, hc, hword⟩ := h
  exact ⟨c, by rw [List.getLast?_append, hc]; rfl, hword⟩

theorem wordStart_blanks (hne : g ≠ []) (hg : Blanks g) : WordStart g := by
  refine ⟨g.getLast hne, List.getLast?_eq_some_getLast hne, ?_, ?_⟩
  · exact notBlank_isPathChar _ (hg _ (List.getLast_mem hne))
  · rintro hc
    have hblank := hg _ (List.getLast_mem hne)
    rw [hc] at hblank
    cases hblank

theorem WordStart.blanks (h : WordStart u) (hg : Blanks g) : WordStart (u ++ g) := by
  by_cases hne : g = []
  · rwa [hne, List.append_nil]
  · exact (wordStart_blanks hne hg).append_left

theorem WordStart.mark (h : WordStart u) (l : Bool) : WordStart (u ++ BraceTemplate.mark l) := by
  cases l with
  | false => rwa [mark_false, List.append_nil]
  | true => exact WordStart.append_left ⟨'~', rfl, by decide, by decide⟩

theorem wordStart_opening (output : Output) : WordStart output.opening := by
  cases output <;> exact ⟨'{', rfl, by decide, by decide⟩

theorem ElseAtEnd.append_left (h : ElseAtEnd x) : ElseAtEnd (u ++ x) := by
  obtain ⟨u', b, r, output, hu, hb, rfl⟩ := h
  exact ⟨u ++ u', b, r, output, hu.append_left, hb, by simp⟩

theorem Resolved.imp {further further' : Prop} {T' : List Char → Prop}
    (h : Resolved further T w x) (hfurther : further → further')
    (hT : ∀ names, T (x ++ closings names) → T' (x ++ closings names)) :
    Resolved further' T' w x := by
  cases h with
  | further h => exact .further (hfurther h)
  | closed names hw h => exact .closed names hw (hT names h)
  | vetoed hw h => exact .vetoed hw h

/-- What is known of a token that a rule for a node misses behind `b`. -/
def AwaitedInNode (rInner : Rule (List Param)) (rBody : Rule Block)
    (inner : List Param → List Char → Prop) (body : Block → List Char → Prop)
    (b w : List Char) : Prop :=
  (∃ u, b = Output.escaped.opening ++ u) ∧
    Resolved (RunsOut (Grammar.node rInner rBody) (b ++ w)) (fun y => ∃ n, TagText inner body n y)
      w (b ++ w)

theorem exists_opening (output : Output) (u : List Char) :
    ∃ u', output.opening ++ u = Output.escaped.opening ++ u' := by
  cases output with
  | escaped => exact ⟨u, rfl⟩
  | raw => exact ⟨'{' :: u, rfl⟩

/-! ## Lists that end in the variable `else` -/

section
variable {α : Type} {S : α → List Char → Prop} {f : α → Param} {as : List α}

theorem Trailing.eq_nil (h : Trailing S as w) (has : as = []) : w = [] := by
  cases h with
  | nil => rfl
  | cons => cases has

/-- Where the last item of a list ends in the word `else`, the list does. -/
theorem Spaced.wordStart (hS : ∀ a v, S a v → f a = .path "else" →
      ∃ u, v = u ++ elseWord ∧ (u = [] ∨ WordStart u))
    (h : Spaced S as w) (he : EndsInElse (as.map f)) : ∃ u, w = u ++ elseWord ∧ WordStart u := by
  induction h with
  | nil => cases he
  | @cons g w v a as hne hg hw hs ih =>
    cases as with
    | nil =>
      cases hs
      obtain ⟨u, rfl, hu⟩ := hS a w hw (by simpa [EndsInElse] using he)
      refine ⟨g ++ u, by simp, ?_⟩
      rcases hu with rfl | hu
      · rw [List.append_nil]
        exact wordStart_blanks hne hg
      · exact hu.append_left
    | cons a' as =>
      obtain ⟨u, rfl, hu⟩ := ih (by simpa [EndsInElse] using he)
      exact ⟨g ++ w ++ u, by simp, hu.append_left⟩

end

theorem not_endsInElse_nil : ¬ EndsInElse [] := nofun

theorem eq_elseWord_of_paramText {p : Param} (h : ParamText inner p v) (hp : p = .path "else") :
    v = elseWord := by
  cases h with
  | path => rw [Param.path.inj hp]; rfl
  | literal | call => cases hp

theorem Spaced.wordStart_params {params : List Param} (h : Spaced (ParamText inner) params w)
    (he : EndsInElse params) : ∃ u, w = u ++ elseWord ∧ WordStart u := by
  refine h.wordStart (f := id) (fun p v hv hp => ⟨[], ?_, .inl rfl⟩) (by simpa using he)
  exact eq_elseWord_of_paramText hv hp

theorem Trailing.wordStart_params {params : List Param} (h : Trailing (ParamText inner) params w)
    (he : EndsInElse params) : ∃ u, w = u ++ elseWord ∧ WordStart u := by
  cases h with
  | nil => cases he
  | @cons g w v p params hg hgap hw hs =>
    by_cases hg0 : g = []
    · cases params with
      | nil =>
        have hp : p = .path "else" := by simpa [EndsInElse] using he
        obtain rfl := eq_elseWord_of_paramText hw hp
        cases hgap hg0
      | cons p' params =>
        obtain ⟨u, rfl, hu⟩ := hs.wordStart_params (by simpa [EndsInElse] using he)
        exact ⟨g ++ w ++ u, by simp, hu.append_left⟩
    · exact (Spaced.cons hg0 hg hw hs).wordStart_params he

theorem Spaced.wordStart_arguments {args : List Argument}
    (h : Spaced (ArgumentText inner) args w) (he : EndsInElse (args.map Argument.value)) :
    ∃ u, w = u ++ elseWord ∧ WordStart u := by
  refine h.wordStart (fun a v hv hp => ?_) he
  obtain @⟨key, value, b, b', v, hk, hb, hb', hv⟩ := hv
  obtain rfl := eq_elseWord_of_paramText hv hp
  refine ⟨key.toList ++ b ++ ['='] ++ b', rfl, .inr (WordStart.blanks ?_ hb')⟩
  exact WordStart.append_left ⟨'=', rfl, by decide, by decide⟩

/-- The name before the list may be the word itself. -/
theorem wordStart_call (name : String) (params : List Param) (hu : WordStart u)
    (hnil : params = [] → w = []) (hw : EndsInElse params → ∃ u, w = u ++ elseWord ∧ WordStart u)
    (he : EndsInElse (.path name :: params)) :
    ∃ v, u ++ (name.toList ++ w) = v ++ elseWord ∧ WordStart v := by
  cases params with
  | nil =>
    obtain rfl : name = "else" := by simpa [EndsInElse] using he
    exact ⟨u, by rw [hnil rfl, List.append_nil, toList_else], hu⟩
  | cons p params =>
    obtain ⟨v, rfl, hv⟩ := hw (by simpa [EndsInElse] using he)
    exact ⟨u ++ (name.toList ++ v), by simp, hv.append_left.append_left⟩

/-- At the end of a tag `else` may be the last word before the closing braces. -/
theorem resolved_tagEnd {further : Prop} {b y : List Char} {params : List Param} (hb : Blanks b)
    (hy : y = x ++ (b ++ mark r)) (helse : EndsInElse params → ∃ u, x = u ++ elseWord ∧ WordStart u)
    (hT : ¬ EndsInElse params → Resolved further T output.closing (y ++ output.closing)) :
    Resolved further T output.closing (y ++ output.closing) := by
  by_cases he : EndsInElse params
  · obtain ⟨u, rfl, hu⟩ := helse he
    exact .vetoed rfl ⟨u, b, r, output, hu, hb, by simp [hy]⟩
  · exact hT he

theorem wordStart_tagHead (output : Output) (l : Bool) (hg : Blanks g) :
    WordStart (output.opening ++ mark l ++ g) :=
  ((wordStart_opening output).mark l).blanks hg

theorem wordStart_partialHead (l : Bool) (hg : Blanks g) :
    WordStart (Output.escaped.opening ++ mark l ++ ['>'] ++ g) :=
  (WordStart.append_left ⟨'>', rfl, by decide, by decide⟩).blanks hg

/-! ## Inline tags -/

theorem awaits_reference (output : Output) (s : List Char) :
    Awaits (AwaitedInNode rInner rBody inner body) (Grammar.reference output) s := by
  refine awaits_tagHead fun l _ _ _ => .afterBlanks fun g _ hg _ _ => ?_
  refine wordless_path.awaits.bind fun path mid hpath => ?_
  obtain ⟨hp, -, rfl⟩ := isPath_of_reads hpath
  refine ⟨path.toList, rfl, awaits_tagEnd (fun b r hb => ⟨exists_opening output _, ?_⟩)
    fun _ _ _ _ _ => Silent.awaits fun _ => rfl⟩
  have hword := wordStart_call path [] (wordStart_tagHead output l hg)
    (fun _ => rfl) fun he => (not_endsInElse_nil he).elim
  refine resolved_tagEnd (r := r) hb (by simp) hword fun he =>
    .closed [] rfl ⟨.reference output path ⟨l, r⟩, ?_⟩
  have hne : path ≠ "else" := fun h => he (by simp [EndsInElse, h])
  have htag : TagText inner body (.reference output path ⟨l, r⟩) _ := .reference hg hp hne hb
  simpa [closings] using htag

/-- A tag starves where the list in it breaks off. -/
theorem BreaksOff.starves_tag {α β : Type} {q : Char → Bool} {p : Rule α} {f : α → Bool → Rule β}
    (h : BreaksOff q p x) (hq : ∀ c, q c = true → isParamStart c = true) :
    Starves (do
      let a ← p
      Grammar.blanks
      let right ← Grammar.tilde
      Grammar.close output
      f a right) x :=
  h.starves_bind (fun _ => starves_tagEnd) fun _ _ hrest => refuses_tagEnd
    (headIs_of_headIs hrest fun c hc => not_isTagEnd_of_isParamStart c (hq c hc))

theorem starves_helper {b : List Char} (hg : Blanks g) (hn : IsName name)
    (hpath : headIs isPathChar (b ++ w) = false)
    (hb : HaltsBehind isTightStart (Grammar.parameters rInner) b w) :
    Starves (Grammar.helper rInner output)
      (output.opening ++ (mark l ++ (g ++ (name.toList ++ (b ++ w))))) := by
  have hname := hn.headIs_mono (s := b ++ w) id
  have hopen := headIs_of_headIs (headIs_skipBlanks_append (w := w) hb.start)
    not_isTagEnd_of_isParamStart
  refine starves_tagHead (headIs_tilde_name hg hname) ?_
  refine .seq (reads_blanks.2 ⟨g, hg, headIs_of_headIs hname not_isBlank_of_isNameChar, rfl⟩) ?_
  refine .bind (reads_name hn (headIs_isNameChar hpath) fun _ => closesTag_eq_false hopen) ?_
  exact hb.breaksOff_blanks.starves_tag isParamStart_of_isTightStart

/-- Where the rule for inline calls starves, all others refuse. -/
theorem runsOut_node_helper (rBody : Rule Block) (output : Output) (l : Bool) {b : List Char}
    (hg : Blanks g) (hn : IsName name) (hpath : headIs isPathChar (b ++ w) = false)
    (hb : HaltsBehind isTightStart (Grammar.parameters rInner) b w) :
    RunsOut (Grammar.node rInner rBody)
      (output.opening ++ (mark l ++ (g ++ (name.toList ++ (b ++ w))))) := by
  have hstart := headIs_skipBlanks_append (w := w) hb.start
  have hname := hn.headIs_mono (s := b ++ w) id
  cases output with
  | escaped =>
    have hother : ∀ {c}, isNameChar c = false → isBlank c = false →
        headIs (· = c) (g ++ (name.toList ++ (b ++ w))) = false := fun hc hblank =>
      (notBlank_eq hblank).headIs hg (headIs_of_headIs hname (ne_of_isNameChar hc))
    have htilde := headIs_tilde_name hg hname
    have hraw : Refuses (Grammar.literal Output.raw.opening) _ :=
      refuses_raw_name (l := l) hg hname
    have hhash := refuses_hash l rInner rBody htilde (hother (by decide) (by decide))
    refine .firstOf [_, _, _] [_, _, _, _] ?_ (.inl (starves_helper hg hn hpath hb)) ?_
    · simp only [List.mem_cons, List.not_mem_nil, or_false, forall_eq_or_imp, forall_eq]
      exact ⟨refuses_content _ _, refuses_reference_start hg hn hpath hstart, hraw.bind⟩
    · simp only [List.mem_cons, List.not_mem_nil, or_false, forall_eq_or_imp, forall_eq]
      exact ⟨hraw.bind, refuses_partialTag htilde (hother (by decide) (by decide)), hhash⟩
  | raw =>
    obtain ⟨hescaped, hescaped'⟩ := refuses_escaped_raw rInner
      (mark l ++ (g ++ (name.toList ++ (b ++ w))))
    have hhash := refuses_hash false rInner rBody
      (s := ['{'] ++ (mark l ++ (g ++ (name.toList ++ (b ++ w))))) rfl rfl
    refine .firstOf [_, _, _, _] [_, _, _] ?_ (.inl (starves_helper hg hn hpath hb)) ?_
    · simp only [List.mem_cons, List.not_mem_nil, or_false, forall_eq_or_imp, forall_eq]
      exact ⟨refuses_content _ _, hescaped, refuses_reference_start hg hn hpath hstart, hescaped'⟩
    · simp only [List.mem_cons, List.not_mem_nil, or_false, forall_eq_or_imp, forall_eq]
      exact ⟨refuses_partialTag (l := false) rfl rfl, hhash⟩

/-- Where the rule for partials starves behind its sign, all others refuse. -/
theorem runsOut_node_partial (rBody : Rule Block)
    (h : Starves (Grammar.partialTag rInner) (Output.escaped.opening ++ (mark l ++ (['>'] ++ x)))) :
    RunsOut (Grammar.node rInner rBody)
      (Output.escaped.opening ++ (mark l ++ (['>'] ++ x))) := by
  have hhash := refuses_hash (s := ['>'] ++ x) l rInner rBody rfl rfl
  refine .firstOf (inlineRules rInner) [_, _]
    (refuses_inlineRules rfl rfl (refuses_identifier.2 (.inr rfl))) (.inl h) ?_
  simpa using hhash

/-- A partial starves where its arguments break off. -/
theorem starves_partialTag {b : List Char} (hg : Blanks g) (hn : IsWord isPartialNameChar name)
    (hu : Blanks u) (hnext : headIs isPartialNameChar (u ++ b) = false)
    (hb : headIs isParamStart b = true)
    (hhalts : Halts isNameChar (Grammar.arguments rInner) (b ++ w)) :
    Starves (Grammar.partialTag rInner) (Output.escaped.opening ++ (mark l ++ (['>'] ++ (g ++
      (name.toList ++ (u ++ (b ++ w))))))) := by
  have hstart : headIs isParamStart (b ++ w) = true := headIs_append_of_true hb
  have hnext' : headIs isPartialNameChar (u ++ (b ++ w)) = false := by
    rw [← List.append_assoc, headIs_append]
    · exact hnext
    · exact List.append_ne_nil_of_right_ne_nil _ (ne_nil_of_headIs hb)
  have hopen : closesTag (u ++ (b ++ w)) = false := by
    refine closesTag_eq_false ?_
    rw [skipBlanks_paramStart hu hstart]
    exact headIs_of_headIs hstart not_isTagEnd_of_isParamStart
  refine starves_tagHead rfl (.seq (reads_token.2 rfl) (.seq (reads_blanks.2
    ⟨g, hg, hn.headIs_blank notBlank_isPartialNameChar, rfl⟩) ?_))
  refine .bind (reads_partialName_append hn hnext' fun _ => hopen) (.seq (reads_blanks.2
    ⟨u, hu, headIs_of_headIs hstart not_isBlank_of_isParamStart, rfl⟩) ?_)
  exact hhalts.optional.starves_tag fun _ => isParamStart_of_isNameChar

section
variable (hi : ReadsBehindName rInner inner) (hforms : FormsBehindName rInner inner)
variable (ha : AwaitsInner rInner)
include hi hforms ha

theorem awaits_helper (output : Output) (s : List Char) :
    Awaits (AwaitedInNode rInner rBody inner body) (Grammar.helper rInner output) s := by
  refine awaits_tagHead fun l _ _ _ => .afterBlanks fun g _ hg _ _ => ?_
  refine .afterName fun name mid hn hnext _ _ => ?_
  refine ((awaits_parametersAfter_blanks hi hforms ha mid).imp ?_).bind fun params _ hp => ?_
  · rintro b c w rfl hb
    have hpath := hb.headIs_isPathChar (headIs_of_append hnext)
    refine ⟨exists_opening output _, .further ?_⟩
    simpa using runsOut_node_helper rBody output l hg hn hpath hb
  · obtain ⟨v, hv, rfl⟩ := trailing_of_reads_parametersAfter hforms hnext hp
    refine ⟨v, rfl, awaits_tagEnd (fun b r hb => ⟨exists_opening output _, ?_⟩)
      fun _ _ _ _ _ => Silent.awaits fun _ => rfl⟩
    have hword := wordStart_call name params (wordStart_tagHead output l hg)
      hv.eq_nil hv.wordStart_params
    refine resolved_tagEnd (r := r) hb (by simp) hword fun he => .closed [] rfl ?_
    cases params with
    | nil =>
      cases hv
      have hne : name ≠ "else" := fun h => he (by simp [EndsInElse, h])
      have htag : TagText inner body (.reference output name ⟨l, r⟩) _ :=
        .reference hg (IsPath.of_isName hn) hne hb
      exact ⟨_, by simpa [closings] using htag⟩
    | cons p params =>
      have htag : TagText inner body (.helper output name (p :: params) none none ⟨l, r⟩ none) _ :=
        .helper hg hn (by simp) (fun h => he (endsInElse_cons h)) hv hb
      exact ⟨_, by simpa [closings] using htag⟩

theorem awaits_partialTag (s : List Char) :
    Awaits (AwaitedInNode rInner rBody inner body) (Grammar.partialTag rInner) s := by
  refine awaits_tagHead fun l _ _ _ => .afterToken (by simp) ⟨⟨_, rfl⟩, .further ?_⟩ fun _ _ => ?_
  · have hname : Starves (Grammar.partialTag rInner)
        (Output.escaped.opening ++ (mark l ++ (['>'] ++ []))) :=
      starves_tagHead rfl (.seq (reads_token.2 rfl)
        (.seq reads_blanks_nil (.bind_left starves_partialName)))
    simpa using runsOut_node_partial rBody hname
  refine .afterBlanks fun g _ hg _ _ => wordless_partialName.awaits.bind fun name _ hname => ?_
  obtain ⟨hn, hnext, -, rfl⟩ := reads_partialName.1 hname
  refine ⟨name.toList, rfl, .afterBlanks fun u mid hu _ hmid => ?_⟩
  subst hmid
  refine ((((awaitsItems_argument hi hforms ha).separated mid).optional).imp ?_).bind
    fun args _ hargs => ?_
  · rintro b c w rfl ⟨hb, hhalts⟩
    rw [← List.append_assoc] at hnext
    refine ⟨⟨_, rfl⟩, .further ?_⟩
    simpa using runsOut_node_partial rBody
      (starves_partialTag (l := l) hg hn hu (headIs_of_append hnext) hb hhalts)
  rcases reads_optional.1 hargs with ⟨args, rfl, ho⟩ | ⟨rfl, -, rfl⟩
  · obtain ⟨a, others, w, v, rfl, hw, hv, rfl⟩ := (forms_argument hforms).separated ho
    refine ⟨w ++ v, by simp, awaits_tagEnd (fun b r hb => ⟨⟨_, rfl⟩, ?_⟩)
      fun _ _ _ _ _ => Silent.awaits fun _ => rfl⟩
    have hgap : u ≠ [] := by
      rintro rfl
      obtain ⟨hk, -, -, -⟩ := hw
      simp only [List.nil_append, List.append_assoc] at hnext
      rw [hk.headIs_mono fun h => by simp [isPartialNameChar, h]] at hnext
      cases hnext
    have hspaced : Spaced (ArgumentText inner) (a :: others) (u ++ w ++ v) := .cons hgap hu hw hv
    have hword := wordStart_call name ((a :: others).map Argument.value)
      (wordStart_partialHead l hg) (by simp) hspaced.wordStart_arguments
    refine resolved_tagEnd (r := r) hb (by simp) hword fun he => .closed [] rfl ?_
    have htag : TagText inner body (.boundPartial name (a :: others) ⟨l, r⟩) _ :=
      .boundPartial hg hn (by simp) (fun h => he (endsInElse_cons h)) hspaced hb
    exact ⟨_, by simpa [closings] using htag⟩
  · refine ⟨[], rfl, awaits_tagEnd (fun b r hb => ⟨⟨_, rfl⟩, ?_⟩)
      fun _ _ _ _ _ => Silent.awaits fun _ => rfl⟩
    have hblanks : Blanks (u ++ b) := fun c hc => (List.mem_append.1 hc).elim (hu c) (hb c)
    have hword := wordStart_call name [] (wordStart_partialHead l hg)
      (fun _ => rfl) fun he => (not_endsInElse_nil he).elim
    refine resolved_tagEnd (r := r) hblanks (by simp) hword fun he => .closed [] rfl ?_
    have hne : name ≠ "else" := fun h => he (by simp [EndsInElse, h])
    have htag : TagText inner body (.plainPartial name [] ⟨l, r⟩) _ :=
      .plainPartial hg hn hne hblanks
    exact ⟨_, by simpa [closings] using htag⟩

end

end BraceTemplate
