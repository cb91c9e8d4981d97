import BraceTemplate.Grammar.Parse
import BraceTemplate.Proofs.Grammar.Complete.Tags

/-!
# Written templates are read

A node is read by the first of eight rules that matches, so each written form of a tag has to be
refused by the rules before its own. Text runs up to the next two opening braces, which are those
of a tag, and an induction on the number of levels carries this from nodes to whole templates.
-/

namespace BraceTemplate

open Rule

variable {s rest w b x : List Char} {rInner : Rule (List Param)} {rBody : Rule Block}
variable {inner : List Param → List Char → Prop} {body : Block → List Char → Prop}
variable {output : Output} {l : Bool}

/-! ## Choosing a tag -/

theorem refuses_content (output : Output) (s : List Char) :
    Refuses Grammar.content (output.opening ++ s) := by
  cases output <;> rfl

/-- Two braces open no tag of three. -/
theorem stripPrefix_raw (h : headIs (· = '{') s = false) :
    stripPrefix Output.raw.opening (Output.escaped.opening ++ (mark l ++ s)) = none := by
  cases l with
  | false =>
    show stripPrefix ['{'] s = none
    exact stripPrefix_cons_eq_none h
  | true => rfl

/-- A reference or an inline call is not read where no name follows the head of the tag. -/
theorem refuses_inline (output : Output) (l : Bool) (rInner : Rule (List Param))
    (ht : headIs (· = '~') s = false)
    (hn : Refuses Grammar.identifier (skipBlanks s)) :
    Refuses (Grammar.reference output) (output.opening ++ (mark l ++ s)) ∧
      Refuses (Grammar.helper rInner output) (output.opening ++ (mark l ++ s)) :=
  ⟨refuses_tagHead ht (refuses_blanks_bind (Refuses.bind (Refuses.bind hn))),
    refuses_tagHead ht (refuses_blanks_bind (Refuses.bind hn))⟩

/-- The rules before those for partials and blocks. -/
def inlineRules (rInner : Rule (List Param)) : List (Rule Node) :=
  [Grammar.content, Grammar.reference .escaped, Grammar.reference .raw,
    Grammar.helper rInner .escaped, Grammar.helper rInner .raw]

theorem node_eq_firstOf : Grammar.node rInner rBody = firstOf (inlineRules rInner ++
    [Grammar.partialTag rInner, Grammar.blockTag rInner rBody,
      Grammar.binderTag rInner rBody]) := rfl

theorem node_eq_append : Grammar.node rInner rBody =
    firstOf ((inlineRules rInner ++ [Grammar.partialTag rInner]) ++
      [Grammar.blockTag rInner rBody, Grammar.binderTag rInner rBody]) := rfl

theorem refuses_inlineRules (ht : headIs (· = '~') s = false) (hr : headIs (· = '{') s = false)
    (hn : Refuses Grammar.identifier (skipBlanks s)) :
    ∀ q ∈ inlineRules rInner, Refuses q (Output.escaped.opening ++ (mark l ++ s)) := by
  obtain ⟨h1, h2⟩ := refuses_inline .escaped l rInner ht hn
  have h3 := refuses_literal.2 (stripPrefix_raw (l := l) hr)
  simp only [inlineRules, List.mem_cons, List.not_mem_nil, or_false, forall_eq_or_imp, forall_eq]
  exact ⟨refuses_content .escaped _, h1, Refuses.bind h3, h2, Refuses.bind h3⟩

theorem refuses_partialTag (ht : headIs (· = '~') s = false) (hp : headIs (· = '>') s = false) :
    Refuses (Grammar.partialTag rInner) (Output.escaped.opening ++ (mark l ++ s)) :=
  refuses_tagHead ht (Refuses.bind (refuses_token.2 (stripPrefix_cons_eq_none hp)))

/-- Where a `#` stands behind the braces, the rules before those for blocks refuse. -/
theorem refuses_inline_hash : ∀ q ∈ inlineRules rInner ++ [Grammar.partialTag rInner],
    Refuses q (Output.escaped.opening ++ (mark l ++ (['#'] ++ s))) := by
  intro q hq
  rcases List.mem_append.1 hq with hq | hq
  · exact refuses_inlineRules rfl rfl (refuses_identifier.2 (.inr rfl)) q hq
  · obtain rfl := List.mem_singleton.1 hq
    exact refuses_partialTag rfl rfl

theorem refuses_hash (l : Bool) (rInner : Rule (List Param)) (rBody : Rule Block)
    (ht : headIs (· = '~') s = false) (hp : headIs (· = '#') s = false) :
    Refuses (Grammar.blockTag rInner rBody) (Output.escaped.opening ++ (mark l ++ s)) ∧
      Refuses (Grammar.binderTag rInner rBody) (Output.escaped.opening ++ (mark l ++ s)) := by
  have h := refuses_token.2 (stripPrefix_cons_eq_none (w := []) hp)
  exact ⟨refuses_tagHead ht (Refuses.bind h), refuses_tagHead ht (Refuses.bind h)⟩

/-- Three braces open no reference or call of two. -/
theorem refuses_escaped_raw (rInner : Rule (List Param)) (s : List Char) :
    Refuses (Grammar.reference .escaped) (Output.raw.opening ++ s) ∧
      Refuses (Grammar.helper rInner .escaped) (Output.raw.opening ++ s) :=
  refuses_inline .escaped false rInner (s := '{' :: s) rfl (refuses_identifier.2 (.inr rfl))

theorem refuses_raw_name (hb : Blanks b) (hs : headIs isNameChar s = true) :
    Refuses (Grammar.literal Output.raw.opening)
      (Output.escaped.opening ++ (mark l ++ (b ++ s))) :=
  refuses_literal.2 (stripPrefix_raw
    ((notBlank_eq rfl).headIs hb (headIs_of_headIs hs (ne_of_isNameChar (by decide)))))

theorem reads_node_reference {path : String} {b' : List Char} {r : Bool} (hb : Blanks b)
    (hp : IsPath path) (he : path ≠ "else") (hb' : Blanks b') :
    Reads (Grammar.node rInner rBody)
      (output.opening ++ (mark l ++ (b ++ (path.toList ++
        (b' ++ (mark r ++ (output.closing ++ rest)))))))
      (.reference output path ⟨l, r⟩) rest := by
  simp only [Grammar.node, reads_firstOf_cons]
  cases output with
  | escaped => exact .inr ⟨refuses_content _ _, .inl (reads_reference hb hp he hb')⟩
  | raw =>
    exact .inr ⟨refuses_content _ _, .inr ⟨(refuses_escaped_raw rInner _).1,
      .inl (reads_reference hb hp he hb')⟩⟩

theorem reads_node_helper (hi : ReadsBehindName rInner inner) {name : String}
    {params : List Param} {b' : List Char} {r : Bool} (hb : Blanks b) (hn : IsName name)
    (hne : params ≠ []) (he : ¬ EndsInElse params) (h : Trailing (ParamText inner) params w)
    (hb' : Blanks b') :
    Reads (Grammar.node rInner rBody)
      (output.opening ++ (mark l ++ (b ++ (name.toList ++ (w ++
        (b' ++ (mark r ++ (output.closing ++ rest))))))))
      (.helper output name params none none ⟨l, r⟩ none) rest := by
  simp only [Grammar.node, reads_firstOf_cons]
  refine .inr ⟨refuses_content _ _, .inr ?_⟩
  cases output with
  | escaped =>
    exact ⟨refuses_reference_call hb hn hne h, .inr
      ⟨Refuses.bind (refuses_raw_name hb (hn.headIs_mono id)),
        .inl (reads_helper hi hb hn hne he h hb')⟩⟩
  | raw =>
    obtain ⟨h1, h2⟩ := refuses_escaped_raw rInner
      (mark l ++ (b ++ (name.toList ++ (w ++ (b' ++ (mark r ++ (Output.raw.closing ++ rest)))))))
    exact ⟨h1, .inr ⟨refuses_reference_call hb hn hne h, .inr ⟨h2,
      .inl (reads_helper hi hb hn hne he h hb')⟩⟩⟩

/-- Each written form of a tag is read. -/
theorem reads_node_tag (hi : ReadsBehindName rInner inner) (hbody : ReadsBody rBody body)
    {n : Node} (h : TagText inner body n w) :
    Reads (Grammar.node rInner rBody) (w ++ rest) n rest := by
  cases h with
  | reference hb hp he hb' =>
    simp only [List.append_assoc]
    exact reads_node_reference hb hp he hb'
  | helper hb hn hne he hw hb' =>
    simp only [List.append_assoc]
    exact reads_node_helper hi hb hn hne he hw hb'
  | plainPartial hb hn he hb' =>
    simp only [List.append_assoc, node_eq_firstOf]
    exact reads_firstOf_append _ _ (refuses_inlineRules rfl rfl (refuses_identifier.2 (.inr rfl)))
      (reads_plainPartial hb hn he hb')
  | boundPartial hb hn hne he hw hb' =>
    simp only [List.append_assoc, node_eq_firstOf]
    exact reads_firstOf_append _ _ (refuses_inlineRules rfl rfl (refuses_identifier.2 (.inr rfl)))
      (reads_boundPartial hi hb hn hne he hw hb')
  | block hn helse he hw hb hu hv =>
    simp only [List.append_assoc]
    rw [node_eq_append]
    exact reads_firstOf_append (inlineRules rInner ++ [Grammar.partialTag rInner]) _
      refuses_inline_hash
      (reads_blockTag hi hbody hn helse he hw hb hu hv)
  | binder hn hne hw hg0 hg hb₁ hb₂ hx hv hb₃ hb₄ hu he =>
    simp only [List.append_assoc]
    rw [node_eq_append]
    refine reads_firstOf_append ((inlineRules rInner ++ [Grammar.partialTag rInner]) ++
      [Grammar.blockTag rInner rBody]) [] (List.forall_mem_append.2 ⟨refuses_inline_hash, ?_⟩)
      (reads_binderTag hi hbody hn hne hw hg0 hg hb₁ hb₂ hx hv hb₃ hb₄ hu he)
    rw [List.forall_mem_singleton]
    exact refuses_blockTag_binder hi hn hne hw hg0 hg hb₁

/-! ## Text -/

theorem getLast?_of_append {c : Char} {v : List Char} (h : (w ++ v).getLast? ≠ some c) :
    v.getLast? ≠ some c := by
  cases v with
  | nil => simp
  | cons d v => simpa [List.getLast?_append] using h

/-- In a text without two opening braces in a row, a brace is not before another. -/
theorem of_beforeTag_cons {c : Char} (h : Grammar.beforeTag (c :: s) = c :: s) :
    (c = '{' → headIs (· = '{') s = false) ∧ Grammar.beforeTag s = s := by
  have hc : c = '{' → headIs (· = '{') s = false := by
    rintro rfl
    cases s with
    | nil => rfl
    | cons d s =>
      simp only [headIs_cons, decide_eq_false_iff_not]
      rintro rfl
      cases h
  rw [beforeTag_cons hc] at h
  exact ⟨hc, (List.cons.inj h).2⟩

theorem beforeTag_append {t : List Char} (ht : Grammar.beforeTag t = t)
    (hrest : rest = [] ∨ t.getLast? ≠ some '{' ∧ ∃ u, rest = Output.escaped.opening ++ u) :
    Grammar.beforeTag (t ++ rest) = t := by
  induction t with
  | nil =>
    rcases hrest with rfl | ⟨-, u, rfl⟩
    · rfl
    · rfl
  | cons c t ih =>
    obtain ⟨hc, ht'⟩ := of_beforeTag_cons ht
    have hnext : c = '{' → headIs (· = '{') (t ++ rest) = false := by
      rintro rfl
      cases t with
      | nil =>
        rcases hrest with rfl | ⟨hlast, -⟩
        · rfl
        · exact (hlast rfl).elim
      | cons d t => exact hc rfl
    rw [List.cons_append, beforeTag_cons hnext, ih ht' ?_]
    exact hrest.imp_right fun h => ⟨getLast?_of_append (w := [c]) h.1, h.2⟩

/-- Text is read up to the opening braces of the tag behind it, or to the end. -/
theorem reads_content {t : String} (ht : IsContent t)
    (hrest : rest = [] ∨ t.toList.getLast? ≠ some '{' ∧ ∃ u, rest = Output.escaped.opening ++ u) :
    Reads Grammar.content (t.toList ++ rest) (.content t) rest := by
  have hb := beforeTag_append ht.2 hrest
  have hf : Grammar.fromTag (t.toList ++ rest) = rest := by
    have := Grammar.beforeTag_append_fromTag (t.toList ++ rest)
    rwa [hb, List.append_cancel_left_eq] at this
  rw [Reads, content_eq, hf]
  split
  · rename_i h
    exact (ht.1 (hb.symm.trans h)).elim
  · rw [hb, String.ofList_toList]

/-! ## Blocks -/

/-- Behind its marker the tag that ends a block starts with a slash, a blank or `else`. -/
theorem headIs_eq_of_endsBlock {t : List Char} {d : Char}
    (h : headIs (· = '/') t = true ∨ closesElse (skipBlanks t) = true) (h1 : d ≠ '/')
    (h2 : d ≠ 'e') (hd : isBlank d = false) : headIs (· = d) t = false := by
  rcases h with h | h
  · refine headIs_of_headIs h fun c hc => ?_
    simp only [decide_eq_true_eq] at hc
    simpa [hc] using h1.symm
  · obtain ⟨t', ht', -⟩ := closesElse_eq_true.1 h
    by_cases hb : headIs isBlank t = true
    · refine headIs_of_headIs hb fun c hc => ?_
      simp only [decide_eq_false_iff_not]
      rintro rfl
      rw [hc] at hd
      cases hd
    · rw [skipBlanks_of_not_head (by simpa using hb)] at ht'
      rw [ht']
      simpa [elseWord] using h2.symm

theorem EndsBlock.refuses_node (h : EndsBlock s) : Refuses (Grammar.node rInner rBody) s := by
  obtain ⟨l, t, rfl, ht, h⟩ := h
  have hq : ∀ {d : Char}, d ≠ '/' → d ≠ 'e' → isBlank d = false → headIs (· = d) t = false :=
    headIs_eq_of_endsBlock h
  have hname : Refuses Grammar.identifier (skipBlanks t) := by
    refine refuses_identifier.2 (h.symm.imp_right fun h => ?_)
    rw [skipBlanks_of_not_head (headIs_of_headIs h fun c hc => ?_)]
    · refine headIs_of_headIs h fun c hc => ?_
      simp only [decide_eq_true_eq] at hc
      rw [hc]
      decide
    · simp only [decide_eq_true_eq] at hc
      rw [hc]
      rfl
  rw [node_eq_firstOf, refuses_firstOf]
  intro q hmem
  rcases List.mem_append.1 hmem with hmem | hmem
  · exact refuses_inlineRules ht (hq (by decide) (by decide) rfl) hname q hmem
  · have hhash := refuses_hash l rInner rBody ht
      (hq (by decide) (by decide) rfl)
    simp only [List.mem_cons, List.not_mem_nil, or_false] at hmem
    rcases hmem with rfl | rfl | rfl
    · exact refuses_partialTag ht (hq (by decide) (by decide) rfl)
    · exact hhash.1
    · exact hhash.2

theorem opening_of_tagText {n : Node} (h : TagText inner body n w) :
    ∃ u, w = Output.escaped.opening ++ u := by
  have hopen : ∀ output : Output, ∃ u, output.opening = Output.escaped.opening ++ u := by
    rintro (_ | _)
    · exact ⟨[], rfl⟩
    · exact ⟨['{'], rfl⟩
  cases h with
  | @reference output =>
    obtain ⟨u, hu⟩ := hopen output
    simp only [hu, List.append_assoc]
    exact ⟨_, rfl⟩
  | @helper output =>
    obtain ⟨u, hu⟩ := hopen output
    simp only [hu, List.append_assoc]
    exact ⟨_, rfl⟩
  | plainPartial | boundPartial | block | binder =>
    simp only [List.append_assoc]
    exact ⟨_, rfl⟩

theorem length_lt_of_tagText {n : Node} (h : TagText inner body n w) :
    rest.length < (w ++ rest).length := by
  obtain ⟨u, rfl⟩ := opening_of_tagText h
  simp [Output.opening]
  omega

/-- Each written form of a block is read, up to a text that starts with no node. -/
theorem reads_blockText_of_refuses (hi : ReadsBehindName rInner inner)
    (hbody : ReadsBody rBody body) {b : Block} (h : BlockText (TagText inner body) b w)
    (hstop : Refuses (Grammar.node rInner rBody) rest)
    (hrest : rest = [] ∨ w.getLast? ≠ some '{' ∧ ∃ u, rest = Output.escaped.opening ++ u) :
    Reads (Rule.many (Grammar.node rInner rBody)) (w ++ rest) b rest := by
  induction h with
  | nil => exact hstop.many
  | @content t ht =>
    have hread : Reads Grammar.content (t.toList ++ rest) (.content t) rest :=
      reads_content ht hrest
    have := List.length_pos_iff.2 ht.1
    refine Reads.many (reads_firstOf_cons.2 (.inl hread)) ?_ hstop.many
    simp only [List.length_append]
    omega
  | @contentTag t n b w v ht hlast hw _ ih =>
    obtain ⟨u, hu⟩ := opening_of_tagText hw
    simp only [List.append_assoc] at hrest ⊢
    have hread : Reads Grammar.content (t.toList ++ (w ++ (v ++ rest))) (.content t)
        (w ++ (v ++ rest)) := by
      refine reads_content ht (.inr ⟨hlast, ?_⟩)
      simp only [hu, List.append_assoc]
      exact ⟨_, rfl⟩
    have := List.length_pos_iff.2 ht.1
    refine Reads.many (reads_firstOf_cons.2 (.inl hread)) ?_ (Reads.many
      (reads_node_tag hi hbody hw) (length_lt_of_tagText hw)
        (ih (hrest.imp_right fun h => ⟨getLast?_of_append (getLast?_of_append h.1), h.2⟩)))
    simp only [List.length_append]
    omega
  | @tag n b w v hw _ ih =>
    rw [List.append_assoc]
    exact Reads.many (reads_node_tag hi hbody hw) (length_lt_of_tagText hw)
      (ih (hrest.imp_right fun h => ⟨getLast?_of_append h.1, h.2⟩))

/-- Each written form of a block is read, up to the end or to the text that ends it. -/
theorem reads_blockText (hi : ReadsBehindName rInner inner) (hbody : ReadsBody rBody body)
    {b : Block} (h : BlockText (TagText inner body) b w)
    (hrest : rest = [] ∨ EndsBlock rest ∧ w.getLast? ≠ some '{') :
    Reads (Rule.many (Grammar.node rInner rBody)) (w ++ rest) b rest := by
  rcases hrest with rfl | ⟨hend, hlast⟩
  · exact reads_blockText_of_refuses hi hbody h rfl (.inl rfl)
  · have hstop : Refuses (Grammar.node rInner rBody) rest := hend.refuses_node
    obtain ⟨l, t, rfl, -⟩ := hend
    exact reads_blockText_of_refuses hi hbody h hstop (.inr ⟨hlast, _, rfl⟩)

theorem readsBody_blockBody (k : Nat) : ReadsBody (Grammar.blockBody k) (BodyText k) := by
  induction k with
  | zero => exact fun _ _ _ h => h.elim
  | succ k ih =>
    intro b w rest h hend
    exact reads_blockText (readsBehindName_innerParams k) ih h.1 (.inr ⟨hend, h.2⟩)

theorem parseChars_of_reads {k : Nat} {b : Block} (h : Reads (Grammar.items k) w b []) :
    parseChars k w = .ok b := by
  unfold parseChars
  cases hitems : Grammar.items k w with
  | mk outcome misses =>
    rw [Reads, hitems] at h
    obtain rfl : outcome = .ok b [] := h
    rfl

/-- A text is read as any block that it writes. -/
theorem parseChars_of_written {k : Nat} {b : Block} (h : Written k b w) :
    parseChars k w = .ok b := by
  have hread := reads_blockText (readsBehindName_innerParams k) (readsBody_blockBody k) h (.inl rfl)
  rw [List.append_nil] at hread
  exact parseChars_of_reads hread

end BraceTemplate
