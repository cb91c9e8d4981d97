import BraceTemplate.Proofs.Grammar.Awaited.Bodies

/-!
# Fixed texts that blocks wait for

The rules for blocks and for binders start alike, so whatever one of them misses in the head of a
block, the other has to refuse the text with the missed token in its place. They part at the word
`as`: behind it only a binder goes on, and at the end of a head without it only a block.
-/

namespace BraceTemplate

open Rule

variable {x v w g b : List Char} {rInner : Rule (List Param)} {rBody : Rule Block}
variable {inner : List Param → List Char → Prop} {body : Block → List Char → Prop}
variable {l r : Bool} {name : String} {params : List Param}

/-! ## Heads -/

/-- The text `h` is the head of a block with this name. Behind it only the rule `rTail` goes on, and
texts that write the rest of a block complete the tag. -/
structure Heads (rInner : Rule (List Param)) (rBody : Rule Block)
    (inner : List Param → List Char → Prop) (body : Block → List Char → Prop)
    (rTail : Rule Node) (T : List Char → Prop) (h : List Char) : Prop where
  opening : ∃ u, h = Output.escaped.opening ++ u
  runsOut : ∀ {x}, RunsOut rTail x → RunsOut (Grammar.node rInner rBody) (h ++ x)
  tag : ∀ {y}, T y → ∃ n, TagText inner body n (h ++ y)

section
variable {β : Type} {rElse : Rule β} {E : List Char → Prop} {f : Block → β → Trim → Node}
variable {h : List Char}

/-- A token that is missed behind the head. -/
theorem Heads.awaited {rTail : Rule Node} {T : List Char → Prop}
    (hh : Heads rInner rBody inner body rTail T h)
    (hres : Resolved (RunsOut rTail (b ++ w)) T w (b ++ w)) :
    AwaitedInNode rInner rBody inner body (h ++ b) w := by
  obtain ⟨u, hu⟩ := hh.opening
  refine ⟨⟨u ++ b, by simp [hu]⟩, ?_⟩
  rw [List.append_assoc]
  cases hres with
  | further hres => exact .further (hh.runsOut hres)
  | closed names hw hres =>
    rw [List.append_assoc] at hres
    exact .closed names hw (by simpa using hh.tag hres)
  | vetoed hw hres => exact .vetoed hw hres.append_left

/-- The braces at the end of the head: with the closing tag behind them the block is complete, if
there is a level left for its body. -/
theorem Heads.resolved_end (hbody : AwaitsBody rBody body) (he : AwaitsElse rElse E)
    (hh : Heads rInner rBody inner body (blockTail rBody rElse name f) (TailText body E name)
      (h ++ Output.escaped.closing)) :
    Resolved (RunsOut (Grammar.node rInner rBody) (h ++ Output.escaped.closing))
      (fun y => ∃ n, TagText inner body n y) Output.escaped.closing
      (h ++ Output.escaped.closing) := by
  rcases hbody.empty with hempty | hdeep
  · refine .closed [name] rfl (hh.tag ⟨[], [], [], .none, hempty, he.none, ?_⟩)
    exact closings_singleton name
  · have hrun := hh.runsOut (x := []) (.inr (tooDeep_bind_left hdeep))
    exact .further (by simpa using hrun)

end

/-! ## Behind the sign -/

theorem runsOut_node_block
    (h : RunsOut (Grammar.blockTag rInner rBody)
      (Output.escaped.opening ++ (mark l ++ (['#'] ++ x))))
    (hbinder : Refuses (Grammar.binderTag rInner rBody)
      (Output.escaped.opening ++ (mark l ++ (['#'] ++ x)))) :
    RunsOut (Grammar.node rInner rBody) (Output.escaped.opening ++ (mark l ++ (['#'] ++ x))) :=
  .firstOf (inlineRules rInner ++ [Grammar.partialTag rInner]) [_]
    refuses_inline_hash h (by simpa using hbinder)

theorem runsOut_node_binder
    (hblock : Refuses (Grammar.blockTag rInner rBody)
      (Output.escaped.opening ++ (mark l ++ (['#'] ++ x))))
    (h : RunsOut (Grammar.binderTag rInner rBody)
      (Output.escaped.opening ++ (mark l ++ (['#'] ++ x)))) :
    RunsOut (Grammar.node rInner rBody) (Output.escaped.opening ++ (mark l ++ (['#'] ++ x))) :=
  .firstOf (inlineRules rInner ++ [Grammar.partialTag rInner] ++
      [Grammar.blockTag rInner rBody]) []
    (List.forall_mem_append.2 ⟨refuses_inline_hash, by simpa using hblock⟩) h nofun

/-- Behind the sign a name is missed. -/
theorem runsOut_node_sign :
    RunsOut (Grammar.node rInner rBody) (Output.escaped.opening ++ (mark l ++ ['#'])) := by
  have hblock : Starves (Grammar.blockTag rInner rBody)
      (Output.escaped.opening ++ (mark l ++ (['#'] ++ []))) :=
    starves_tagHead rfl (.seq (reads_token.2 rfl) (.bind_left starves_identifier))
  refine runsOut_node_block (.inl hblock) (refuses_tagHead rfl ?_)
  exact Reads.seq_refuses (reads_token.2 rfl) starves_identifier.refuses.bind

/-! ## Parameters that are not complete -/

section
variable (hn : IsName name) (hblank : headIs isBlank b = true)
variable (hb : HaltsBehind isTightStart (Grammar.parameters rInner) b w)
include hn hblank hb

theorem reads_name_halts : Reads Grammar.identifier (name.toList ++ (b ++ w)) name (b ++ w) := by
  have hstart := headIs_skipBlanks_append (w := w) hb.start
  refine reads_name hn ?_ fun _ => closesTag_eq_false
    (headIs_of_headIs hstart not_isTagEnd_of_isParamStart)
  obtain ⟨g, y, hne, rfl, hg, -⟩ := hb.exists_blanks hblank
  rw [List.append_assoc]
  exact notBlank_isNameChar.headIs_of_ne_nil hne hg

theorem starves_blockTag_params : Starves (Grammar.blockTag rInner rBody)
    (Output.escaped.opening ++ (mark l ++ (['#'] ++ (name.toList ++ (b ++ w))))) := by
  refine starves_tagHead rfl (.seq (reads_token.2 rfl) (.bind (reads_name_halts hn hblank hb) ?_))
  exact (hb.breaksOff_space hblank).starves_tag isParamStart_of_isTightStart

theorem refuses_binderTag_params : Refuses (Grammar.binderTag rInner rBody)
    (Output.escaped.opening ++ (mark l ++ (['#'] ++ (name.toList ++ (b ++ w))))) := by
  refine refuses_tagHead rfl (Reads.seq_refuses (reads_token.2 rfl)
    ((reads_name_halts hn hblank hb).bind_refuses ?_))
  obtain ⟨g, y, hne, rfl, hg, hy, hhalts⟩ := hb.exists_blanks hblank
  rw [List.append_assoc]
  refine Reads.seq_refuses (reads_space.2 ⟨g, hne, hg, hy, rfl⟩) ?_
  rcases hhalts with ⟨as, rest, hread, hrest⟩ | ⟨hstarves, -⟩
  · refine hread.bind_refuses ?_
    rcases hrest with rfl | ⟨-, hstart⟩
    · exact Refuses.bind rfl
    · exact refuses_space_bind (Refuses.bind (refuses_token_of_headIs hstart rfl))
  · exact hstarves.refuses.bind

theorem runsOut_node_params (rBody : Rule Block) (l : Bool) : RunsOut (Grammar.node rInner rBody)
    (Output.escaped.opening ++ (mark l ++ (['#'] ++ (name.toList ++ (b ++ w))))) :=
  runsOut_node_block (.inl (starves_blockTag_params hn hblank hb))
    (refuses_binderTag_params hn hblank hb)

end

/-! ## Heads of blocks -/

section
variable (hi : ReadsBehindName rInner inner) (hn : IsName name)
variable (helse : ¬ EndsInElse (.path name :: params)) (hw : Spaced (ParamText inner) params w)
variable (hg : Blanks g)
include hi hn helse hw hg

theorem goesOn_blockTag : GoesOn (Grammar.blockTag rInner rBody)
    (Output.escaped.opening ++ (mark l ++ (['#'] ++ (name.toList ++ (w ++ (g ++ (mark r ++
      (Output.escaped.closing ++ x))))))))
    (blockTail rBody (Rule.optional (Grammar.markedElse rBody)) name fun first second closing =>
      .helper .raw name params (some first) (second.map (·.2)) .none
        (some ⟨⟨l, r⟩, (second.map (·.1)).getD .none, closing⟩)) x := by
  have hend := ends_closing (s := x) hg r .escaped
  refine goesOn_tagHead rfl (.seq (reads_token.2 rfl) ?_)
  refine .bind (hw.trailing.reads_name hn hend
    fun hp hname => helse (by simp [EndsInElse, hp, hname])) ?_
  refine .bind (reads_parametersAfter_space hi hw hend
    fun h => (helse (endsInElse_cons h)).elim) ?_
  exact .of_eq (tagEnd_eq hg)

/-- Where the head of a block ends without the word `as`, there is no binder. -/
theorem refuses_binderTag_block : Refuses (Grammar.binderTag rInner rBody)
    (Output.escaped.opening ++ (mark l ++ (['#'] ++ (name.toList ++ (w ++ (g ++ (mark r ++
      (Output.escaped.closing ++ x)))))))) := by
  have hend := ends_closing (s := x) hg r .escaped
  refine refuses_tagHead rfl (Reads.seq_refuses (reads_token.2 rfl) ?_)
  refine Reads.bind_refuses (hw.trailing.reads_name hn hend
    fun hp hname => helse (by simp [EndsInElse, hp, hname])) ?_
  cases hw with
  | nil => exact refuses_space_bind (refuses_parameters hend).bind
  | @cons g' w v p params hne hg' hw hs =>
    simp only [List.append_assoc]
    refine Reads.seq_refuses (reads_space.2 ⟨g', hne, hg', starts_paramText.notBlank hw, rfl⟩) ?_
    refine Reads.bind_refuses (hend.reads_parameters hi
      (fun h => (helse (endsInElse_cons h)).elim) hw hs) ?_
    refine refuses_space_bind (Refuses.bind (refuses_token.2 (stripPrefix_cons_eq_none ?_)))
    rw [skipBlanks_append hg]
    cases r <;> rfl

theorem heads_block : Heads rInner rBody inner body
    (blockTail rBody (Rule.optional (Grammar.markedElse rBody)) name fun first second closing =>
      .helper .raw name params (some first) (second.map (·.2)) .none
        (some ⟨⟨l, r⟩, (second.map (·.1)).getD .none, closing⟩))
    (TailText body (fun v => ∃ o t, OtherwiseText body o t v) name)
    (Output.escaped.opening ++ mark l ++ ['#'] ++ name.toList ++ w ++ g ++ mark r ++
      Output.escaped.closing) where
  opening := by
    simp only [List.append_assoc]
    exact ⟨_, rfl⟩
  runsOut h := by
    simp only [List.append_assoc]
    exact runsOut_node_block ((goesOn_blockTag hi hn helse hw hg).runsOut h)
      (refuses_binderTag_block hi hn helse hw hg)
  tag := by
    rintro _ ⟨first, u, v, c, hu, ⟨o, between, hv⟩, rfl⟩
    have htag : TagText inner body (.helper .raw name params (some first) o .none
        (some ⟨⟨l, r⟩, between, c⟩)) _ :=
      .block hn (fun hp hname => helse (by simp [EndsInElse, hp, hname]))
        (fun h => helse (endsInElse_cons h)) hw hg hu hv
    exact ⟨_, by simpa only [List.append_assoc] using htag⟩

end

/-- Where the end of a tag is read behind a list, `else` is not the last word before it. -/
theorem not_endsInElse_of_closesTag (hnil : params = [] → w = [])
    (hname : ¬ (name = "else" ∧ closesTag (w ++ x) = true))
    (hparams : EndsInElse params → closesTag x = false) (hx : closesTag x = true) :
    ¬ EndsInElse (.path name :: params) := by
  intro he
  cases params with
  | nil =>
    rw [hnil rfl] at hname
    exact hname ⟨by simpa [EndsInElse] using he, hx⟩
  | cons p params =>
    rw [hparams (by simpa [EndsInElse] using he)] at hx
    cases hx

theorem wordStart_blockHead (l : Bool) : WordStart (Output.escaped.opening ++ mark l ++ ['#']) :=
  WordStart.append_left ⟨'#', rfl, by decide, by decide⟩

/-! ## Heads of binders -/

/-- What follows the first bar in the head of a binder. -/
def binderNames (rBody : Rule Block) (name : String)
    (f : List String → Bool → Block → Option Block → Trim → Node) : Rule Node := do
  Grammar.blanks
  let names ← Rule.separated Grammar.space Grammar.identifier
  Grammar.blanks
  Grammar.token ['|']
  Grammar.blanks
  let right ← Grammar.tilde
  Grammar.close .escaped
  blockTail rBody (Rule.optional (Grammar.plainElse rBody)) name (f names right)

section
variable {f : List String → Bool → Block → Option Block → Trim → Node}
variable {b₁ b₂ b₃ b₄ : List Char}

theorem runsOut_node_names (hi : ReadsBehindName rInner inner) (hn : IsName name)
    (hne : params ≠ []) (hw : Spaced (ParamText inner) params w) (hg0 : g ≠ []) (hg : Blanks g)
    (hb₁ : Blanks b₁) (h : RunsOut (binderNames rBody name fun names right first second closing =>
      .binder name params names first second ⟨⟨l, right⟩, .none, closing⟩) x) :
    RunsOut (Grammar.node rInner rBody) (Output.escaped.opening ++ (mark l ++ (['#'] ++
      (name.toList ++ (w ++ (g ++ (['a', 's'] ++ (b₁ ++ (['|'] ++ x))))))))) := by
  refine runsOut_node_binder (refuses_blockTag_binder hi hn hne hw hg0 hg hb₁) ?_
  refine GoesOn.runsOut ?_ h
  have hend := ends_names (s := x) hg0 hg hb₁
  have hopen : closesTag (g ++ (['a', 's'] ++ (b₁ ++ (['|'] ++ x)))) = false :=
    Apart.closesTag ⟨g, _, hg0, hg, rfl, rfl⟩
  cases hw with
  | nil => exact (hne rfl).elim
  | @cons g' w v p params hg0' hg' hw hs =>
    simp only [List.append_assoc]
    have hparam : Apart (g' ++ (w ++ (v ++ (g ++ (['a', 's'] ++ (b₁ ++ (['|'] ++ x))))))) :=
      ⟨g', _, hg0', hg', starts_paramText.append hw, rfl⟩
    refine goesOn_tagHead rfl (.seq (reads_token.2 rfl) ?_)
    refine .bind (reads_name hn (hparam.headIs notBlank_isNameChar) fun _ => hparam.closesTag)
      (.seq (reads_space.2 ⟨g', hg0', hg', starts_paramText.notBlank hw, rfl⟩) ?_)
    refine .bind (hend.reads_parameters hi (fun _ => hopen) hw hs)
      (.seq (reads_space.2 ⟨g, hg0, hg, rfl, rfl⟩) ?_)
    exact .seq (reads_token.2 rfl) (.seq (reads_blanks.2 ⟨b₁, hb₁, rfl, rfl⟩)
      (.seq (reads_token.2 rfl) (.refl _ _)))

theorem runsOut_binderNames_nil : RunsOut (binderNames rBody name f) [] :=
  .inl (.seq reads_blanks_nil (.bind_left (.bind_left starves_identifier)))

/-- Behind the second bar only the end of the tag is missing. -/
theorem goesOn_binderNames {z : String} {names : List String} (hb₂ : Blanks b₂) (hz : IsName z)
    (hv : Spaced NameText names v) (hb₃ : Blanks b₃) :
    GoesOn (binderNames rBody name f)
      (b₂ ++ (z.toList ++ (v ++ (b₃ ++ (['|'] ++ x)))))
      (do
        Grammar.blanks
        let right ← Grammar.tilde
        Grammar.close .escaped
        blockTail rBody (Rule.optional (Grammar.plainElse rBody)) name (f (z :: names) right))
      x := by
  refine .seq (reads_blanks.2 ⟨b₂, hb₂, hz.headIs_blank notBlank_isNameChar, rfl⟩) ?_
  refine .bind (reads_names hz hv hb₃) ?_
  exact .seq (reads_blanks.2 ⟨b₃, hb₃, rfl, rfl⟩) (.seq (reads_token.2 rfl) (.refl _ _))

theorem heads_binder {z : String} {names : List String} (hi : ReadsBehindName rInner inner)
    (hn : IsName name) (hne : params ≠ []) (hw : Spaced (ParamText inner) params w) (hg0 : g ≠ [])
    (hg : Blanks g) (hb₁ : Blanks b₁) (hb₂ : Blanks b₂) (hz : IsName z)
    (hv : Spaced NameText names v) (hb₃ : Blanks b₃) (hb₄ : Blanks b₄) :
    Heads rInner rBody inner body
      (blockTail rBody (Rule.optional (Grammar.plainElse rBody)) name fun first second closing =>
        .binder name params (z :: names) first second ⟨⟨l, r⟩, .none, closing⟩)
      (TailText body (fun v => ∃ o, OtherwiseText body o .none v) name)
      (Output.escaped.opening ++ mark l ++ ['#'] ++ name.toList ++ w ++ g ++ ['a', 's'] ++ b₁ ++
        ['|'] ++ b₂ ++ z.toList ++ v ++ b₃ ++ ['|'] ++ b₄ ++ mark r ++
        Output.escaped.closing) where
  opening := by
    simp only [List.append_assoc]
    exact ⟨_, rfl⟩
  runsOut h := by
    simp only [List.append_assoc]
    exact runsOut_node_names hi hn hne hw hg0 hg hb₁ ((goesOn_binderNames hb₂ hz hv hb₃).runsOut
      ((GoesOn.of_eq (tagEnd_eq hb₄)).runsOut h))
  tag := by
    rintro _ ⟨first, u, e, c, hu, ⟨o, he⟩, rfl⟩
    have htag : TagText inner body (.binder name params (z :: names) first o
        ⟨⟨l, r⟩, .none, c⟩) _ := .binder hn hne hw hg0 hg hb₁ hb₂ hz hv hb₃ hb₄ hu he
    exact ⟨_, by simpa only [List.append_assoc] using htag⟩

theorem Spaced.append {α : Type} {S : α → List Char → Prop} {as as' : List α}
    (h : Spaced S as w) (h' : Spaced S as' v) : Spaced S (as ++ as') (w ++ v) := by
  induction h with
  | nil => exact h'
  | cons hne hg hw _ ih =>
    rw [List.append_assoc]
    exact .cons hne hg hw ih

/-- The word `as` at the end of the text is one more parameter. -/
theorem haltsBehind_as (hi : ReadsBehindName rInner inner) {p : Param} {g' : List Char}
    (hg' : Blanks g') (hw : ParamText inner p w) (hv : Spaced (ParamText inner) params v)
    (hg0 : g ≠ []) (hg : Blanks g) :
    HaltsBehind isTightStart (Grammar.parameters rInner) (g' ++ (w ++ (v ++ g))) ['a', 's'] := by
  have has : IsName "as" := by decide
  have hword : Spaced (ParamText inner) [.path "as"] (g ++ ['a', 's'] ++ []) :=
    .cons hg0 hg (.path (IsPath.of_isName has)) .nil
  have hfollows : Follows [] := ⟨rfl, rfl⟩
  have hread : Reads (Grammar.parameters rInner) _ _ _ :=
    (readsItems_parameter hi).separated hfollows rfl (fun _ => rfl) hw (hv.append hword)
  refine ⟨g', w ++ (v ++ g), rfl, hg', starts_paramText.append hw,
    .inl ⟨p :: (params ++ [.path "as"]), [], ?_, .inl rfl⟩⟩
  simpa using hread

end

section
variable (hi : ReadsBehindName rInner inner) (hforms : FormsBehindName rInner inner)
variable (ha : AwaitsInner rInner) (hbody : AwaitsBody rBody body)
include hi hforms ha hbody

theorem awaits_blockTag (s : List Char) :
    Awaits (AwaitedInNode rInner rBody inner body) (Grammar.blockTag rInner rBody) s := by
  refine awaits_tagHead fun l _ _ _ => .afterToken (by simp) ⟨⟨_, rfl⟩, .further ?_⟩ fun _ _ => ?_
  · simpa using runsOut_node_sign
  refine .afterName fun name mid hn _ helse _ => ?_
  refine ((awaits_parametersAfter_space hi hforms ha mid).mono ?_).bind fun params _ hparams => ?_
  · rintro b w ⟨hblank, hb⟩
    exact ⟨⟨_, rfl⟩, .further (by simpa using runsOut_node_params hn hblank hb rBody l)⟩
  obtain ⟨w, hw, rfl⟩ := forms_parametersAfter_space hforms hparams
  have hheads : ∀ {g r}, Blanks g → ¬ EndsInElse (.path name :: params) →
      Heads rInner rBody inner body _ _ _ := fun {g r} hg he =>
    heads_block (l := l) (r := r) hi hn he hw hg
  refine ⟨w, rfl, awaits_tagEnd (fun g r hg => ⟨⟨_, rfl⟩, ?_⟩) fun g r mid hg hmid => ?_⟩
  · have hword := wordStart_call name params (wordStart_blockHead l) hw.trailing.eq_nil
      hw.wordStart_params
    refine resolved_tagEnd (r := r) hg (by simp) hword fun he => ?_
    have hend := (hheads (r := r) hg he).resolved_end hbody hbody.markedElse
    simpa only [List.append_assoc] using hend
  · subst hmid
    have he := not_endsInElse_of_closesTag hw.trailing.eq_nil helse
      (closesTag_of_reads_parametersAfter hparams) (closesTag_closing hg r .escaped)
    refine (awaits_blockTail hbody hbody.markedElse hn mid).mono fun b t h => ?_
    simpa only [List.append_assoc] using (hheads (r := r) hg he).awaited h

theorem awaits_binderTag (s : List Char) :
    Awaits (AwaitedInNode rInner rBody inner body) (Grammar.binderTag rInner rBody) s := by
  refine awaits_tagHead fun l _ _ _ => .afterToken (by simp) ⟨⟨_, rfl⟩, .further ?_⟩ fun _ _ => ?_
  · simpa using runsOut_node_sign
  refine .afterName fun name _ hn _ _ _ => .afterSpace fun g₀ mid hg₀ hblanks _ _ => ?_
  refine (((awaitsItems_parameter hi hforms ha).separated mid).mono ?_).bind
    fun params _ hparams => ?_
  · rintro b w ⟨hb, hhalts⟩
    have hrun := runsOut_node_params hn (headIs_blanks_append hg₀ hblanks)
      ⟨g₀, b, rfl, hblanks, hb, hhalts⟩ rBody l
    exact ⟨⟨_, rfl⟩, .further (by simpa using hrun)⟩
  -- Up to the word `as` a block reads the same, so there its rule has to run out of text, too.
  obtain ⟨p, others, w, v, rfl, hw, hv, rfl⟩ := (forms_parameter hforms).separated hparams
  have hlist : Spaced (ParamText inner) (p :: others) (g₀ ++ w ++ v) := .cons hg₀ hblanks hw hv
  refine ⟨w ++ v, by simp, .afterSpace fun g _ hg0 hg _ _ => .afterToken (by simp) ?_ fun _ _ => ?_⟩
  · have hrun := runsOut_node_params hn (headIs_blanks_append hg₀ hblanks)
      (haltsBehind_as hi hblanks hw hv hg0 hg) rBody l
    exact ⟨⟨_, rfl⟩, .further (by simpa using hrun)⟩
  refine .afterBlanks fun b₁ _ hb₁ _ _ => .afterToken (by simp) ?_ fun mid _ => ?_
  · have hrun : RunsOut (Grammar.node rInner rBody) _ := runsOut_node_names (l := l) hi hn
      (by simp) hlist hg0 hg hb₁ runsOut_binderNames_nil
    exact ⟨⟨_, rfl⟩, .further (by simpa using hrun)⟩
  refine .afterBlanks fun b₂ _ hb₂ _ _ => wordless_names.awaits.bind fun names _ hnames => ?_
  obtain ⟨z, names, _, v', rfl, ⟨hz, rfl⟩, hnames', rfl⟩ := forms_name.separated hnames
  refine ⟨z.toList ++ v', by simp, .afterBlanks fun b₃ _ hb₃ _ _ =>
    .afterToken (by simp) ?_ fun _ _ => ?_⟩
  · have hrun : RunsOut (Grammar.node rInner rBody) _ := runsOut_node_names (l := l) hi hn
      (by simp) hlist hg0 hg hb₁
      ((goesOn_binderNames hb₂ hz hnames' hb₃).runsOut (.inl starves_tagEnd))
    exact ⟨⟨_, rfl⟩, .further (by simpa using hrun)⟩
  have hheads : ∀ {b₄ r}, Blanks b₄ → Heads rInner rBody inner body _ _ _ := fun {b₄ r} hb₄ =>
    heads_binder (l := l) (r := r) hi hn (by simp) hlist hg0 hg hb₁ hb₂ hz hnames' hb₃ hb₄
  refine awaits_tagEnd (fun b₄ r hb₄ => ⟨⟨_, rfl⟩, ?_⟩) fun b₄ r mid hb₄ _ => ?_
  · have hend := (hheads (r := r) hb₄).resolved_end hbody hbody.plainElse
    simpa only [List.append_assoc] using hend
  · refine (awaits_blockTail hbody hbody.plainElse hn mid).mono fun b t h => ?_
    simpa only [List.append_assoc] using (hheads (r := r) hb₄).awaited h

/-- A token that a rule for a node misses leads on, or is the end of a tag. -/
theorem awaits_node (s : List Char) : Awaits (AwaitedInNode rInner rBody inner body)
    (Grammar.node rInner rBody) s := by
  refine awaits_firstOf ?_
  simp only [List.mem_cons, List.not_mem_nil, or_false, forall_eq_or_imp, forall_eq]
  exact ⟨silent_content.awaits, awaits_reference _ s, awaits_reference _ s,
    awaits_helper hi hforms ha _ s, awaits_helper hi hforms ha _ s,
    awaits_partialTag hi hforms ha s, awaits_blockTag hi hforms ha hbody s,
    awaits_binderTag hi hforms ha hbody s⟩

end

end BraceTemplate
