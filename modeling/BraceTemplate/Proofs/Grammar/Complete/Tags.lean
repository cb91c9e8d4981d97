import BraceTemplate.Proofs.Grammar.Complete.Params

/-!
# Written tags are read

Each written form of a tag is read by the rule for it, whatever text follows. Before an
alternative of `Grammar.node` is read, those before it have to refuse: the character behind the
opening braces and the marker tells most of them apart, a reference stops at the first parameter
of a call, and a block at the word `as` of a binder.
-/

namespace BraceTemplate

open Rule

variable {s rest w b b' x : List Char} {rInner : Rule (List Param)} {rBody : Rule Block}
variable {inner : List Param → List Char → Prop} {body : Block → List Char → Prop}
variable {output : Output} {l r : Bool}

/-! ## Ends of tags -/

section
variable {α : Type} {f : Bool → Rule α} {a : α}

theorem reads_tagHead (hs : headIs (· = '~') s = false) (h : Reads (f l) s a rest) :
    Reads (do Grammar.literal output.opening; let left ← Grammar.tilde; f left)
      (output.opening ++ (mark l ++ s)) a rest :=
  Reads.seq (reads_literal.2 rfl) (Reads.bind (reads_tilde.2 ⟨rfl, fun _ => hs⟩) h)

theorem refuses_tagHead (hs : headIs (· = '~') s = false) (h : Refuses (f l) s) :
    Refuses (do Grammar.literal output.opening; let left ← Grammar.tilde; f left)
      (output.opening ++ (mark l ++ s)) :=
  Reads.seq_refuses (reads_literal.2 rfl) (Reads.bind_refuses (reads_tilde.2 ⟨rfl, fun _ => hs⟩) h)

theorem reads_tagEnd (hb : Blanks b) (h : Reads (f r) s a rest) :
    Reads (do Grammar.blanks; let right ← Grammar.tilde; Grammar.close output; f right)
      (b ++ (mark r ++ (output.closing ++ s))) a rest := by
  refine Reads.afterBlanks hb ?_ <|
    Reads.bind (reads_tilde.2 ⟨rfl, fun _ => headIs_closing (by decide)⟩) <|
    Reads.seq (reads_close.2 rfl) h
  exact headIs_append_eq_false (headIs_mark (by decide)) (headIs_closing (by decide))

theorem headIs_eq_of_tagEnd {d : Char} (h : headIs isTagEnd s = false) (hd : isTagEnd d = true) :
    headIs (· = d) s = false := by
  cases s with
  | nil => rfl
  | cons c t =>
    simp only [headIs_cons, decide_eq_false_iff_not]
    rintro rfl
    rw [show isTagEnd c = false from h] at hd
    cases hd

/-- No tag ends where, behind blanks, there is neither a marker nor a closing brace. -/
theorem refuses_tagEnd (h : headIs isTagEnd (skipBlanks s) = false) :
    Refuses (do Grammar.blanks; let right ← Grammar.tilde; Grammar.close output; f right) s := by
  have htilde : Reads Grammar.tilde (skipBlanks s) false (skipBlanks s) :=
    reads_tilde.2 ⟨rfl, fun _ => headIs_eq_of_tagEnd h rfl⟩
  refine refuses_blanks_bind (htilde.bind_refuses (Refuses.bind (refuses_token.2 ?_)))
  cases output <;> exact stripPrefix_cons_eq_none (headIs_eq_of_tagEnd h rfl)

end

/-! ## References -/

theorem ne_of_isNameChar {d : Char} (hd : isNameChar d = false) :
    ∀ c, isNameChar c = true → decide (c = d) = false := by
  intro c hc
  simp only [decide_eq_false_iff_not]
  rintro rfl
  rw [hc] at hd
  cases hd

theorem not_isBlank_of_isNameChar (c : Char) (hc : isNameChar c = true) : isBlank c = false :=
  not_isBlank_of_isParamStart c (isParamStart_of_isNameChar hc)

theorem IsPath.headIs_append {path : String} (hp : IsPath path) :
    BraceTemplate.headIs isNameChar (path.toList ++ s) = true :=
  (BraceTemplate.headIs_append (ne_nil_of_headIs hp.headIs)).trans hp.headIs

theorem IsPath.of_isName {name : String} (hn : IsName name) : IsPath name :=
  ⟨name, [], hn, by simp, String.intercalate_singleton.symm⟩

/-- A marker is not met before a name, behind blanks or not. -/
theorem headIs_tilde_name (hb : Blanks b) (h : headIs isNameChar s = true) :
    headIs (· = '~') (b ++ s) = false :=
  (notBlank_eq rfl).headIs hb (headIs_of_headIs h (ne_of_isNameChar (by decide)))

theorem reads_reference {path : String} (hb : Blanks b) (hp : IsPath path) (he : path ≠ "else")
    (hb' : Blanks b') :
    Reads (Grammar.reference output)
      (output.opening ++ (mark l ++ (b ++ (path.toList ++
        (b' ++ (mark r ++ (output.closing ++ rest)))))))
      (.reference output path ⟨l, r⟩) rest := by
  have hname := hp.headIs_append (s := b' ++ (mark r ++ (output.closing ++ rest)))
  refine reads_tagHead (headIs_tilde_name hb hname) ?_
  refine Reads.afterBlanks hb (headIs_of_headIs hname not_isBlank_of_isNameChar) ?_
  refine Reads.bind (reads_path hp (ends_closing hb' r output).apart fun h => he h.1) ?_
  exact reads_tagEnd hb' (reads_pure.2 ⟨rfl, rfl⟩)

/-- A reference is not read where a parameter starts behind the name. -/
theorem refuses_reference_start {name : String} (hb : Blanks b) (hn : IsName name)
    (hpath : headIs isPathChar x = false) (hstart : headIs isParamStart (skipBlanks x) = true) :
    Refuses (Grammar.reference output)
      (output.opening ++ (mark l ++ (b ++ (name.toList ++ x)))) := by
  have hname := hn.headIs_mono (s := x) id
  have hend := headIs_of_headIs hstart not_isTagEnd_of_isParamStart
  refine refuses_tagHead (headIs_tilde_name hb hname) ?_
  refine Reads.seq_refuses
    (reads_blanks.2 ⟨b, hb, headIs_of_headIs hname not_isBlank_of_isNameChar, rfl⟩) ?_
  refine Reads.bind_refuses (reads_path (IsPath.of_isName hn) hpath fun hc => ?_)
    (refuses_tagEnd hend)
  rw [closesTag_eq_false hend] at hc
  cases hc.2

theorem refuses_reference_call {name : String} {params : List Param} (hb : Blanks b)
    (hn : IsName name) (hne : params ≠ []) (h : Trailing (ParamText inner) params w) :
    Refuses (Grammar.reference output)
      (output.opening ++ (mark l ++ (b ++ (name.toList ++ (w ++ x))))) := by
  refine refuses_reference_start hb hn (h.headIs starts_paramText fun h => (hne h).elim) ?_
  cases h with
  | nil => exact (hne rfl).elim
  | cons hg _ hw _ =>
    rw [List.append_assoc, List.append_assoc,
      skipBlanks_paramStart hg (starts_paramText.append hw)]
    exact starts_paramText.append hw

/-- A name before its parameters is read. -/
theorem Trailing.reads_name {name : String} {params : List Param}
    (h : Trailing (ParamText inner) params w) (hn : IsName name) (hend : Ends rest)
    (helse : params = [] → name ≠ "else") :
    Reads Grammar.identifier (name.toList ++ (w ++ rest)) name (w ++ rest) := by
  have hnext := h.headIs starts_paramText fun _ => hend.apart
  refine BraceTemplate.reads_name hn (headIs_isNameChar hnext) ?_
  rintro rfl
  exact h.closesTag starts_paramText fun hp => (helse hp rfl).elim

theorem reads_helper (hi : ReadsBehindName rInner inner) {name : String} {params : List Param}
    (hb : Blanks b) (hn : IsName name) (hne : params ≠ []) (he : ¬ EndsInElse params)
    (h : Trailing (ParamText inner) params w) (hb' : Blanks b') :
    Reads (Grammar.helper rInner output)
      (output.opening ++ (mark l ++ (b ++ (name.toList ++ (w ++
        (b' ++ (mark r ++ (output.closing ++ rest))))))))
      (.helper output name params none none ⟨l, r⟩ none) rest := by
  have hend := ends_closing (s := rest) hb' r output
  have hname := hn.headIs_mono (s := w ++ (b' ++ (mark r ++ (output.closing ++ rest)))) id
  refine reads_tagHead (headIs_tilde_name hb hname) ?_
  refine Reads.afterBlanks hb (headIs_of_headIs hname not_isBlank_of_isNameChar) ?_
  refine Reads.bind (h.reads_name hn hend fun h => (hne h).elim) ?_
  refine Reads.bind (reads_parametersAfter_blanks hi h hend fun h => (he h).elim) ?_
  exact reads_tagEnd hb' (reads_pure.2 ⟨rfl, rfl⟩)

/-! ## Partials -/

theorem reads_partialName_append {name : String} (hn : IsWord isPartialNameChar name)
    (hr : headIs isPartialNameChar rest = false) (he : name = "else" → closesTag rest = false) :
    Reads Grammar.partialName (name.toList ++ rest) name rest := by
  refine reads_partialName.2 ⟨hn, hr, ?_, rfl⟩
  rintro ⟨hname, hc⟩
  rw [he hname] at hc
  cases hc

theorem reads_plainPartial {name : String} (hb : Blanks b) (hn : IsWord isPartialNameChar name)
    (he : name ≠ "else") (hb' : Blanks b') :
    Reads (Grammar.partialTag rInner)
      (Output.escaped.opening ++ (mark l ++ (['>'] ++ (b ++ (name.toList ++
        (b' ++ (mark r ++ (Output.escaped.closing ++ rest))))))))
      (.plainPartial name [] ⟨l, r⟩) rest := by
  have hblank : headIs isBlank (mark r ++ (Output.escaped.closing ++ rest)) = false := by
    cases r <;> rfl
  refine reads_tagHead rfl (Reads.afterToken ?_)
  refine Reads.afterBlanks hb (hn.headIs_blank notBlank_isPartialNameChar) ?_
  refine Reads.bind (reads_partialName_append hn (notBlank_isPartialNameChar.headIs hb' ?_)
    fun h => (he h).elim) ?_
  · cases r <;> rfl
  refine Reads.afterBlanks hb' hblank ?_
  have hargs : Refuses (Grammar.arguments rInner) (mark r ++ (Output.escaped.closing ++ rest)) := by
    refine Refuses.bind (Refuses.bind (refuses_identifier.2 (.inr ?_)))
    cases r <;> rfl
  refine Reads.bind hargs.optional ?_
  exact reads_tagEnd (b := []) blanks_nil (reads_pure.2 ⟨rfl, rfl⟩)

theorem refuses_argument (h : headIs isNameChar s = false) :
    Refuses (Grammar.argument rInner) s :=
  Refuses.bind (refuses_identifier.2 (.inr h))

theorem reads_boundPartial (hi : ReadsBehindName rInner inner) {name : String}
    {args : List Argument} (hb : Blanks b) (hn : IsWord isPartialNameChar name) (hne : args ≠ [])
    (he : ¬ EndsInElse (args.map Argument.value)) (h : Spaced (ArgumentText inner) args w)
    (hb' : Blanks b') :
    Reads (Grammar.partialTag rInner)
      (Output.escaped.opening ++ (mark l ++ (['>'] ++ (b ++ (name.toList ++ (w ++
        (b' ++ (mark r ++ (Output.escaped.closing ++ rest)))))))))
      (.boundPartial name args ⟨l, r⟩) rest := by
  have hend := ends_closing (s := rest) hb' r .escaped
  have hstop : headIs isNameChar
      (skipBlanks (b' ++ (mark r ++ (Output.escaped.closing ++ rest)))) = false := by
    rw [skipBlanks_append hb']
    cases r <;> rfl
  obtain _ | @⟨g, w, v, a, args, hg0, hg, hw, hs⟩ := h
  · exact (hne rfl).elim
  simp only [List.append_assoc]
  refine reads_tagHead rfl (Reads.afterToken ?_)
  refine Reads.afterBlanks hb (hn.headIs_blank notBlank_isPartialNameChar) ?_
  have hnext : Apart (g ++ (w ++ (v ++ (b' ++ (mark r ++ (Output.escaped.closing ++ rest)))))) :=
    ⟨g, _, hg0, hg, starts_argumentText.append hw, rfl⟩
  refine Reads.bind (reads_partialName_append hn (hnext.headIs notBlank_isPartialNameChar)
    fun _ => hnext.closesTag) ?_
  refine Reads.afterBlanks hg (starts_argumentText.notBlank hw) ?_
  refine Reads.bind (Reads.optional ((readsItems_argument hi).separated hend.follows
    (refuses_argument hstop) (fun h => (he h).elim) hw hs)) ?_
  exact reads_tagEnd hb' (reads_pure.2 ⟨rfl, rfl⟩)

/-! ## Blocks -/

/-- The text ends the nodes of a block: it goes on with a closing tag or an `else` tag. -/
def EndsBlock (s : List Char) : Prop :=
  ∃ l t, s = Output.escaped.opening ++ (mark l ++ t) ∧ headIs (· = '~') t = false ∧
    (headIs (· = '/') t = true ∨ closesElse (skipBlanks t) = true)

/-- The rule reads each written form of a block that is ended by the text behind. -/
def ReadsBody (r : Rule Block) (T : Block → List Char → Prop) : Prop :=
  ∀ ⦃b w rest⦄, T b w → EndsBlock rest → Reads r (w ++ rest) b rest

/-- The text goes on with a tag that starts with a slash. -/
def SlashTag (s : List Char) : Prop :=
  ∃ l t, s = Output.escaped.opening ++ (mark l ++ (['/'] ++ t))

theorem slashTag_closing {name : String} {t : Trim} : SlashTag (closingText name t ++ rest) :=
  ⟨t.left, name.toList ++ (mark t.right ++ (Output.escaped.closing ++ rest)), by
    simp [closingText]⟩

theorem SlashTag.endsBlock (h : SlashTag s) : EndsBlock s := by
  obtain ⟨l, t, rfl⟩ := h
  exact ⟨l, _, rfl, rfl, .inl rfl⟩

theorem endsBlock_closing {name : String} {t : Trim} : EndsBlock (closingText name t ++ rest) :=
  slashTag_closing.endsBlock

theorem endsBlock_else (hb : Blanks b) (hb' : Blanks b') :
    EndsBlock (Output.escaped.opening ++ (mark l ++ (b ++ (elseWord ++ (b' ++ (mark r ++
      (Output.escaped.closing ++ rest))))))) := by
  refine ⟨l, _, rfl, (notBlank_eq rfl).headIs hb rfl, .inr ?_⟩
  rw [skipBlanks_append hb]
  exact closesElse_eq_true.2 ⟨_, rfl, closesTag_closing hb' r .escaped⟩

theorem reads_closingTag {name : String} {t : Trim} :
    Reads (Grammar.closingTag name) (closingText name t ++ rest) t rest := by
  unfold closingText
  simp only [List.append_assoc]
  refine reads_tagHead rfl (Reads.afterToken ?_)
  refine Reads.seq (reads_expect.2 (reads_literal.2 rfl)) ?_
  refine Reads.bind (reads_tilde.2 ⟨rfl, fun _ => headIs_closing (by decide)⟩) ?_
  exact Reads.seq (reads_close.2 rfl) (reads_pure.2 ⟨rfl, rfl⟩)

theorem SlashTag.refuses_markedElse (h : SlashTag s) : Refuses (Grammar.markedElse rBody) s := by
  obtain ⟨l, t, rfl⟩ := h
  refine refuses_tagHead rfl (refuses_blanks_bind (Refuses.bind (refuses_token.2 ?_)))
  exact stripPrefix_cons_eq_none rfl

theorem SlashTag.refuses_plainElse (h : SlashTag s) : Refuses (Grammar.plainElse rBody) s := by
  obtain ⟨l, t, rfl⟩ := h
  refine Reads.seq_refuses (reads_literal.2 rfl)
    (refuses_blanks_bind (Refuses.bind (refuses_token.2 (stripPrefix_cons_eq_none ?_))))
  cases l <;> rfl

theorem reads_markedElse (hbody : ReadsBody rBody body) {otherwise : Option Block} {t : Trim}
    (h : OtherwiseText body otherwise t w) (hs : SlashTag s) :
    Reads (Rule.optional (Grammar.markedElse rBody)) (w ++ s) (otherwise.map fun o => (t, o))
      s := by
  cases h with
  | none => exact Refuses.optional hs.refuses_markedElse
  | some hb hb' hu =>
    simp only [List.append_assoc]
    refine Reads.optional (reads_tagHead ((notBlank_eq rfl).headIs hb rfl) ?_)
    refine Reads.afterBlanks hb rfl (Reads.afterToken ?_)
    exact reads_tagEnd hb' (Reads.bind (hbody hu hs.endsBlock) (reads_pure.2 ⟨rfl, rfl⟩))

theorem reads_plainElse (hbody : ReadsBody rBody body) {otherwise : Option Block}
    (h : OtherwiseText body otherwise .none w) (hs : SlashTag s) :
    Reads (Rule.optional (Grammar.plainElse rBody)) (w ++ s) otherwise s := by
  cases h with
  | none => exact Refuses.optional hs.refuses_plainElse
  | some hb hb' hu =>
    simp only [List.append_assoc, mark_false, List.nil_append]
    refine Reads.optional (Reads.seq (reads_literal.2 rfl) ?_)
    refine Reads.afterBlanks hb rfl (Reads.afterToken ?_)
    refine Reads.afterBlanks hb' rfl (Reads.seq (reads_close.2 rfl) ?_)
    exact hbody hu hs.endsBlock

theorem endsBlock_otherwise {otherwise : Option Block} {t : Trim}
    (h : OtherwiseText body otherwise t w) (hs : SlashTag s) : EndsBlock (w ++ s) := by
  cases h with
  | none => exact hs.endsBlock
  | some hb hb' _ =>
    simp only [List.append_assoc]
    exact endsBlock_else hb hb'

theorem Spaced.trailing {α : Type} {T : α → List Char → Prop} {as : List α} (h : Spaced T as w) :
    Trailing T as w := by
  cases h with
  | nil => exact .nil
  | cons hne hg hw hs => exact .cons hg (fun h => (hne h).elim) hw hs

theorem reads_blockTag (hi : ReadsBehindName rInner inner) (hbody : ReadsBody rBody body)
    {name : String} {params : List Param} {first : Block} {otherwise : Option Block}
    {u v : List Char} {between closing : Trim} (hn : IsName name)
    (helse : params = [] → name ≠ "else") (he : ¬ EndsInElse params)
    (h : Spaced (ParamText inner) params w) (hb : Blanks b) (hu : body first u)
    (hv : OtherwiseText body otherwise between v) :
    Reads (Grammar.blockTag rInner rBody)
      (Output.escaped.opening ++ (mark l ++ (['#'] ++ (name.toList ++ (w ++ (b ++ (mark r ++
        (Output.escaped.closing ++ (u ++ (v ++ (closingText name closing ++ rest)))))))))))
      (.helper .raw name params (some first) otherwise .none
        (some ⟨⟨l, r⟩, between, closing⟩)) rest := by
  have hend := ends_closing (s := u ++ (v ++ (closingText name closing ++ rest))) hb r .escaped
  refine reads_tagHead rfl (Reads.afterToken ?_)
  refine Reads.bind (h.trailing.reads_name hn hend helse) ?_
  refine Reads.bind (reads_parametersAfter_space hi h hend fun h => (he h).elim) ?_
  refine reads_tagEnd hb (Reads.bind (hbody hu (endsBlock_otherwise hv slashTag_closing)) ?_)
  refine Reads.bind (reads_markedElse hbody hv slashTag_closing) (Reads.bind reads_closingTag ?_)
  refine reads_pure.2 ⟨?_, rfl⟩
  cases hv <;> rfl

/-- A block is not read where the names of a binder follow the parameters. -/
theorem refuses_blockTag_binder (hi : ReadsBehindName rInner inner) {name : String}
    {params : List Param} {g b₁ : List Char} (hn : IsName name) (hne : params ≠ [])
    (h : Spaced (ParamText inner) params w) (hg0 : g ≠ []) (hg : Blanks g) (hb₁ : Blanks b₁) :
    Refuses (Grammar.blockTag rInner rBody)
      (Output.escaped.opening ++ (mark l ++ (['#'] ++ (name.toList ++ (w ++
        (g ++ (['a', 's'] ++ (b₁ ++ (['|'] ++ x))))))))) := by
  have hend := ends_names (s := x) hg0 hg hb₁
  have hopen : closesTag (g ++ (['a', 's'] ++ (b₁ ++ (['|'] ++ x)))) = false :=
    Apart.closesTag ⟨g, _, hg0, hg, rfl, rfl⟩
  refine refuses_tagHead rfl (Reads.seq_refuses (reads_token.2 rfl) ?_)
  refine Reads.bind_refuses (h.trailing.reads_name hn hend fun h => (hne h).elim) ?_
  have hparams := reads_parametersAfter_space hi h hend fun _ => hopen
  refine Reads.bind_refuses hparams (refuses_tagEnd ?_)
  rw [skipBlanks_append hg]
  rfl

/-- The names of a binder are read up to the second bar. -/
theorem reads_names {y : String} {names : List String} {v : List Char} (hy : IsName y)
    (h : Spaced NameText names v) (hb : Blanks b) :
    Reads (Rule.separated Grammar.space Grammar.identifier)
      (y.toList ++ (v ++ (b ++ (['|'] ++ rest)))) (y :: names) (b ++ (['|'] ++ rest)) := by
  have hbar := skipBlanks_append (s := ['|'] ++ rest) hb
  refine readsItems_name.separated (notBlank_isNameChar.headIs hb rfl) ?_
    (fun _ => closesTag_eq_false ?_) ⟨hy, rfl⟩ h
  · rw [hbar]
    exact refuses_identifier.2 (.inr rfl)
  · rw [hbar]
    rfl

theorem reads_binderTag (hi : ReadsBehindName rInner inner) (hbody : ReadsBody rBody body)
    {name y : String} {params : List Param} {names : List String} {first : Block}
    {otherwise : Option Block} {g b₁ b₂ b₃ b₄ u v e : List Char} {closing : Trim}
    (hn : IsName name) (hne : params ≠ []) (h : Spaced (ParamText inner) params w)
    (hg0 : g ≠ []) (hg : Blanks g) (hb₁ : Blanks b₁) (hb₂ : Blanks b₂) (hy : IsName y)
    (hnames : Spaced NameText names v) (hb₃ : Blanks b₃) (hb₄ : Blanks b₄) (hu : body first u)
    (hv : OtherwiseText body otherwise .none e) :
    Reads (Grammar.binderTag rInner rBody)
      (Output.escaped.opening ++ (mark l ++ (['#'] ++ (name.toList ++ (w ++ (g ++ (['a', 's'] ++
        (b₁ ++ (['|'] ++ (b₂ ++ (y.toList ++ (v ++ (b₃ ++ (['|'] ++ (b₄ ++ (mark r ++
          (Output.escaped.closing ++ (u ++ (e ++
            (closingText name closing ++ rest))))))))))))))))))))
      (.binder name params (y :: names) first otherwise ⟨⟨l, r⟩, .none, closing⟩) rest := by
  obtain _ | @⟨g', w, ws, p, params, hg0', hg', hw, hs⟩ := h
  · exact (hne rfl).elim
  simp only [List.append_assoc]
  refine reads_tagHead rfl (Reads.afterToken ?_)
  have hparam : Apart (g' ++ (w ++ (ws ++ (g ++ (['a', 's'] ++ (b₁ ++ (['|'] ++ (b₂ ++
      (y.toList ++ (v ++ (b₃ ++ (['|'] ++ (b₄ ++ (mark r ++ (Output.escaped.closing ++
        (u ++ (e ++ (closingText name closing ++ rest)))))))))))))))))) :=
    ⟨g', _, hg0', hg', starts_paramText.append hw, rfl⟩
  refine Reads.bind (reads_name hn (hparam.headIs notBlank_isNameChar) fun _ => hparam.closesTag) ?_
  refine Reads.afterSpace hg0' hg' (starts_paramText.notBlank hw) ?_
  have hend := ends_names (s := b₂ ++ (y.toList ++ (v ++ (b₃ ++ (['|'] ++ (b₄ ++ (mark r ++
    (Output.escaped.closing ++ (u ++ (e ++ (closingText name closing ++ rest))))))))))) hg0 hg hb₁
  refine Reads.bind (hend.reads_parameters hi
    (fun _ => Apart.closesTag ⟨g, _, hg0, hg, rfl, rfl⟩) hw hs) ?_
  refine Reads.afterSpace hg0 hg rfl (Reads.afterToken ?_)
  refine Reads.afterBlanks hb₁ rfl (Reads.afterToken ?_)
  refine Reads.afterBlanks hb₂ (hy.headIs_blank notBlank_isNameChar) ?_
  refine Reads.bind (reads_names hy hnames hb₃) ?_
  refine Reads.afterBlanks hb₃ rfl (Reads.afterToken ?_)
  refine reads_tagEnd hb₄ (Reads.bind (hbody hu (endsBlock_otherwise hv slashTag_closing)) ?_)
  refine Reads.bind (reads_plainElse hbody hv slashTag_closing) (Reads.bind reads_closingTag ?_)
  exact reads_pure.2 ⟨rfl, rfl⟩

end BraceTemplate
