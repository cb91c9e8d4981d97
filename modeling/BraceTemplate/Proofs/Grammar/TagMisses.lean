import BraceTemplate.Proofs.Grammar.Complete.Blocks
import BraceTemplate.Proofs.Grammar.Inside

/-!
# What is missed at a tag

Before a tag is read, other rules have been tried at its braces, and each of them has missed
something. All of these misses lie before the end of the tag: the head of a tag is left through its
closing braces only, and the body of a block is read the same way by every rule that comes as far.
An induction on the number of levels carries this to the tags in the body.
-/

namespace BraceTemplate

open Rule

/-! ## Written forms stay inside -/

/-- Inside a tag the text can stand in front. -/
def Tidy (w : List Char) : Prop := ∀ ⦃rest s⦄, InTag rest s → InTag rest (w ++ s)

variable {rest s w x : List Char} {k : Nat} {m : Miss}

theorem Tidy.append {v : List Char} (hw : Tidy w) (hv : Tidy v) : Tidy (w ++ v) := by
  intro rest s hs
  rw [List.append_assoc]
  exact hw (hv hs)

theorem tidy_of_plain (hw : ∀ c ∈ w, IsPlain c) : Tidy w := by
  intro rest s hs
  induction w with
  | nil => exact hs
  | cons c w ih => exact .plain (hw c (by simp)) (ih fun d hd => hw d (by simp [hd]))

theorem tidy_blanks (h : Blanks w) : Tidy w :=
  tidy_of_plain fun c hc => isPlain_of_isBlank c (h c hc)

theorem tidy_mark (l : Bool) : Tidy (mark l) := by
  refine tidy_of_plain ?_
  cases l <;> decide

theorem tidy_opening (output : Output) : Tidy output.opening := by
  refine tidy_of_plain ?_
  cases output <;> decide

theorem IsWord.tidy {p : Char → Bool} {name : String} (h : IsWord p name)
    (hp : ∀ c, p c = true → IsPlain c) : Tidy name.toList :=
  tidy_of_plain fun c hc => hp c (h.2 c hc)

theorem tidy_name {name : String} (h : IsName name) : Tidy name.toList :=
  h.tidy isPlain_of_isNameChar

theorem IsPath.tidy {path : String} (h : IsPath path) : Tidy path.toList :=
  tidy_of_plain fun c hc => isPlain_of_isPathChar c (h.all c hc)

theorem tidy_quoted {q : Char} {t : List Char} (hq : isQuote q) (ht : q ∉ t) :
    Tidy ([q] ++ t ++ [q]) := by
  intro rest s hs
  have hquoted := InTag.quoted hq ht hs
  simpa using hquoted

section
variable {α : Type} {T : α → List Char → Prop} {as : List α}

theorem Spaced.tidy (hT : ∀ a w, T a w → Tidy w) (h : Spaced T as w) : Tidy w := by
  induction h with
  | nil => exact tidy_of_plain (by simp)
  | cons _ hg hw _ ih => exact ((tidy_blanks hg).append (hT _ _ hw)).append ih

theorem Trailing.tidy (hT : ∀ a w, T a w → Tidy w) (h : Trailing T as w) : Tidy w := by
  cases h with
  | nil => exact tidy_of_plain (by simp)
  | cons hg _ hw hs => exact ((tidy_blanks hg).append (hT _ _ hw)).append (hs.tidy hT)

end

section
variable {inner : List Param → List Char → Prop}
variable (hi : ∀ params w, inner params w → Tidy w)
include hi

theorem ParamText.tidy (p : Param) (w : List Char) (h : ParamText inner p w) : Tidy w := by
  cases h with
  | path hp => exact hp.tidy
  | literal hq hnot => exact tidy_quoted hq hnot
  | call hb hn hw hb' =>
    have hopen : Tidy ['('] := tidy_of_plain (by decide)
    have hclose : Tidy [')'] := tidy_of_plain (by decide)
    exact ((((hopen.append (tidy_blanks hb)).append (tidy_name hn)).append (hi _ _ hw)).append
      (tidy_blanks hb')).append hclose

theorem ArgumentText.tidy (a : Argument) (w : List Char) (h : ArgumentText inner a w) :
    Tidy w := by
  obtain ⟨hk, hb, hb', hw⟩ := h
  have hsign : Tidy ['='] := tidy_of_plain (by decide)
  exact ((((tidy_name hk).append (tidy_blanks hb)).append hsign).append (tidy_blanks hb')).append
    (ParamText.tidy hi _ _ hw)

end

theorem tidy_innerText (k : Nat) : ∀ params w, InnerText k params w → Tidy w := by
  induction k with
  | zero => exact fun _ _ h => h.elim
  | succ k ih => exact fun _ _ h => Trailing.tidy (ParamText.tidy ih) h

theorem NameText.tidy (name : String) (w : List Char) (h : NameText name w) : Tidy w := by
  obtain ⟨hn, rfl⟩ := h
  exact tidy_name hn

/-- Before the closing braces one is inside a tag. Of three, two are enough. -/
theorem inTag_closing (output : Output) (rest : List Char) :
    ∃ r, rest.length ≤ r.length ∧ InTag r (output.closing ++ rest) := by
  cases output with
  | escaped => exact ⟨rest, Nat.le_refl _, .close⟩
  | raw => exact ⟨'}' :: rest, by simp, inTag_close ('}' :: rest)⟩

theorem inTag_closingText {name : String} (hn : IsName name) (t : Trim) (rest : List Char) :
    InTag rest (closingText name t ++ rest) := by
  have hslash : Tidy ['/'] := tidy_of_plain (by decide)
  have hhead := ((((tidy_opening .escaped).append (tidy_mark t.left)).append hslash).append
    (tidy_name hn)).append (tidy_mark t.right)
  rw [closingText, List.append_assoc _ _ rest]
  exact hhead .close

/-! ## Rules that stop at a token -/

variable {α β : Type} {rInner : Rule (List Param)} {rBody : Rule Block} {rElse : Rule β}
variable {inner : List Param → List Char → Prop} {body : Block → List Char → Prop}

theorem tagHead_eq {f : Bool → Rule α} {output : Output} {l : Bool}
    (hs : headIs (· = '~') s = false) :
    (do Grammar.literal output.opening; let left ← Grammar.tilde; f left)
      (output.opening ++ (mark l ++ s)) = f l s := by
  have hopening : Reads (Grammar.literal output.opening) (output.opening ++ (mark l ++ s)) ()
      (mark l ++ s) := reads_literal.2 rfl
  have htilde : Reads Grammar.tilde (mark l ++ s) l s := reads_tilde.2 ⟨rfl, fun _ => hs⟩
  rw [bind_of_ok ((silent_literal _).eq_of_reads hopening),
    bind_of_ok (silent_tilde.eq_of_reads htilde)]

theorem tagEnd_eq {f : Bool → Rule α} {output : Output} {b : List Char} {r : Bool}
    (hb : Blanks b) :
    (do Grammar.blanks; let right ← Grammar.tilde; Grammar.close output; f right)
      (b ++ (mark r ++ (output.closing ++ s))) = f r s := by
  have hblanks : Reads Grammar.blanks (b ++ (mark r ++ (output.closing ++ s))) ()
      (mark r ++ (output.closing ++ s)) := by
    refine reads_blanks.2 ⟨b, hb, ?_, rfl⟩
    exact headIs_append_eq_false (headIs_mark (by decide)) (headIs_closing (by decide))
  have htilde : Reads Grammar.tilde (mark r ++ (output.closing ++ s)) r (output.closing ++ s) :=
    reads_tilde.2 ⟨rfl, fun _ => headIs_closing (by decide)⟩
  have hclose : Grammar.close output (output.closing ++ s) = ⟨.ok () s, []⟩ := token_append _ _
  rw [bind_of_ok (silent_blanks.eq_of_reads hblanks), bind_of_ok (silent_tilde.eq_of_reads htilde),
    bind_of_ok hclose]

theorem mem_misses_tagHead {f : Bool → Rule α} {output : Output} {l : Bool}
    (hs : headIs (· = '~') s = false) :
    m ∈ ((do Grammar.literal output.opening; let left ← Grammar.tilde; f left)
      (output.opening ++ (mark l ++ s))).misses ↔ m ∈ (f l s).misses := by
  rw [tagHead_eq hs]

theorem left_of_refuses_token {f : Unit → Rule α} (h : Refuses (Grammar.token w) s)
    (hm : m ∈ ((Grammar.token w >>= f) s).misses) : m.left = s.length := by
  rw [bind_of_mismatch (token_of_stripPrefix (refuses_token.1 h)), List.mem_singleton] at hm
  rw [hm]

/-! ## The parts of a block -/

section
variable (hk : k ≤ rest.length)
include hk

theorem guarded_tagEnd_body {f : Bool → Rule α} (hf : ∀ r, ∀ m ∈ (f r rest).misses, k < m.left) :
    Guarded k rest (do
      Grammar.blanks; let right ← Grammar.tilde; Grammar.close .escaped; f right) :=
  Stays.guarded hk stays_blanks fun _ => Stays.guarded hk stays_tilde fun r =>
    guarded_close_body hk (hf r)

theorem guarded_closingTag {name : String} (hn : IsName name) :
    Guarded k rest (Grammar.closingTag name) := by
  have hname : ∀ c ∈ name.toList, IsPlain c := fun c hc => isPlain_of_isNameChar c (hn.2 c hc)
  refine guarded_tagHead hk fun _ => Stays.guarded hk (stays_token (by decide)) fun _ => ?_
  refine Stays.guarded hk (stays_literal hname).expect fun _ => ?_
  exact Stays.guarded hk stays_tilde fun _ => guarded_close hk fun _ _ => rfl

theorem guarded_markedElse (hbody : ∀ m ∈ (rBody rest).misses, k < m.left) :
    Guarded k rest (Grammar.markedElse rBody) := by
  refine guarded_tagHead hk fun _ => Stays.guarded hk stays_blanks fun _ => ?_
  refine Stays.guarded hk (stays_token (by decide)) fun _ => guarded_tagEnd_body hk fun _ m hm => ?_
  exact hbody m ((mem_misses_bind_silent fun _ _ => rfl).1 hm)

theorem guarded_plainElse (hbody : ∀ m ∈ (rBody rest).misses, k < m.left) :
    Guarded k rest (Grammar.plainElse rBody) := by
  refine Stays.guarded hk (stays_literal (by decide)) fun _ => Stays.guarded hk stays_blanks
    fun _ => ?_
  refine Stays.guarded hk (stays_token (by decide)) fun _ => Stays.guarded hk stays_blanks
    fun _ => ?_
  exact guarded_close_body hk hbody

/-- What follows the head of a block: its body, perhaps an alternative, and its closing tag. -/
def blockTail (rBody : Rule Block) (rElse : Rule β) (name : String)
    (f : Block → β → Trim → Node) : Rule Node := do
  let first ← rBody
  let second ← rElse
  let closing ← Grammar.closingTag name
  return f first second closing

theorem guarded_blockTag (hi : Stays rest rInner)
    (htail : ∀ name f, IsName name → ∀ m ∈ (blockTail rBody
      (Rule.optional (Grammar.markedElse rBody)) name f rest).misses, k < m.left) :
    Guarded k rest (Grammar.blockTag rInner rBody) := by
  refine guarded_tagHead hk fun _ => Stays.guarded hk (stays_token (by decide)) fun _ => ?_
  refine guarded_identifier hk fun name hn => ?_
  refine Stays.guarded hk (stays_parametersAfter stays_space hi) fun _ => ?_
  exact guarded_tagEnd_body hk fun _ m hm => htail name _ hn m hm

theorem guarded_binderTag (hi : Stays rest rInner)
    (htail : ∀ name f, IsName name → ∀ m ∈ (blockTail rBody
      (Rule.optional (Grammar.plainElse rBody)) name f rest).misses, k < m.left) :
    Guarded k rest (Grammar.binderTag rInner rBody) := by
  refine guarded_tagHead hk fun _ => Stays.guarded hk (stays_token (by decide)) fun _ => ?_
  refine guarded_identifier hk fun name hn => Stays.guarded hk stays_space fun _ => ?_
  refine Stays.guarded hk (stays_parameters hi) fun _ => Stays.guarded hk stays_space fun _ => ?_
  refine Stays.guarded hk (stays_token (by decide)) fun _ => ?_
  refine Stays.guarded hk stays_blanks fun _ => ?_
  refine Stays.guarded hk (stays_token (by decide)) fun _ => ?_
  refine Stays.guarded hk stays_blanks fun _ => ?_
  refine Stays.guarded hk (Stays.separated stays_space stays_identifier) fun _ => ?_
  refine Stays.guarded hk stays_blanks fun _ => ?_
  refine Stays.guarded hk (stays_token (by decide)) fun _ => ?_
  exact guarded_tagEnd_body hk fun _ m hm => htail name _ hn m hm

theorem guarded_inlineRules (hi : Stays rest rInner) :
    Guarded k rest (firstOf (inlineRules rInner ++ [Grammar.partialTag rInner])) := by
  refine guarded_firstOf ?_
  simp only [inlineRules, List.cons_append, List.nil_append, List.mem_cons, List.not_mem_nil,
    or_false, forall_eq_or_imp, forall_eq]
  exact ⟨silent_content.guarded, guarded_reference hk, guarded_reference hk, guarded_helper hk hi,
    guarded_helper hk hi, guarded_partialTag hk hi⟩

end

/-- What a rule for a node misses inside a tag lies there, unless the rule is one for blocks. Those
are tried last. -/
theorem mem_misses_node (hi : Stays rest rInner) (hs : InTag rest s)
    (hm : m ∈ (Grammar.node rInner rBody s).misses) :
    rest.length < m.left ∨
      (∀ q ∈ inlineRules rInner ++ [Grammar.partialTag rInner], Refuses q s) ∧
        (m ∈ (Grammar.blockTag rInner rBody s).misses ∨
          Refuses (Grammar.blockTag rInner rBody) s ∧
            m ∈ (Grammar.binderTag rInner rBody s).misses) := by
  rw [node_eq_append] at hm
  rcases (mem_misses_firstOf_append _ _).1 hm with hm | ⟨hrefuses, hm⟩
  · exact .inl (guarded_inlineRules (Nat.le_refl _) hi hs hm)
  · refine .inr ⟨hrefuses, ?_⟩
    rcases mem_misses_orElse.1 hm with hm | ⟨hblock, hm⟩
    · exact .inl hm
    rcases mem_misses_orElse.1 hm with hm | ⟨-, hm⟩
    · exact .inr ⟨hblock, hm⟩
    · exact (List.not_mem_nil hm).elim

/-! ## Where a block ends -/

/-- A rule for blocks stops where a tag has no `#` behind its braces. -/
theorem left_of_mem_misses_hash {l : Bool} (ht : headIs (· = '~') s = false)
    (hhash : headIs (· = '#') s = false)
    (hm : m ∈ (Grammar.blockTag rInner rBody (Output.escaped.opening ++ (mark l ++ s))).misses ∨
      m ∈ (Grammar.binderTag rInner rBody (Output.escaped.opening ++ (mark l ++ s))).misses) :
    m.left = s.length := by
  have hrefuses : Refuses (Grammar.token ['#']) s :=
    refuses_token.2 (stripPrefix_cons_eq_none hhash)
  rcases hm with hm | hm
  · exact left_of_refuses_token hrefuses ((mem_misses_tagHead ht).1 hm)
  · exact left_of_refuses_token hrefuses ((mem_misses_tagHead ht).1 hm)

/-- The rules for a node miss nothing behind the tag that ends a block. -/
theorem EndsBlock.before_node (hi : Stays rest rInner) (h : EndsBlock s) (hs : InTag rest s)
    (hm : m ∈ (Grammar.node rInner rBody s).misses) : rest.length < m.left := by
  rcases mem_misses_node hi hs hm with hm | ⟨-, hm⟩
  · exact hm
  obtain ⟨l, t, rfl, ht, hnext⟩ := h
  have hhash : headIs (· = '#') t = false :=
    headIs_eq_of_endsBlock hnext (by decide) (by decide) rfl
  have hleft := left_of_mem_misses_hash ht hhash (hm.imp_right And.right)
  have hinside : InTag rest t := by
    refine InTag.drop ?_ (InTag.drop ?_ hs)
    · cases l <;> decide
    · decide
  rw [hleft]
  exact hinside.length_lt

/-- Nothing is missed behind the tag that ends the body of a block, when the body is read. -/
def MissesBefore (rBody : Rule Block) (body : Block → List Char → Prop) : Prop :=
  ∀ ⦃b u rest s m⦄, body b u → EndsBlock s → InTag rest s → m ∈ (rBody (u ++ s)).misses →
    rest.length < m.left

theorem inTag_else {l r : Bool} {b b' : List Char} (hb : Blanks b) (hb' : Blanks b')
    (x : List Char) : InTag x (Output.escaped.opening ++ (mark l ++ (b ++ (elseWord ++
      (b' ++ (mark r ++ (Output.escaped.closing ++ x))))))) := by
  have helse : Tidy elseWord := tidy_of_plain (by decide)
  exact tidy_opening _ (tidy_mark l (tidy_blanks hb (helse (tidy_blanks hb' (tidy_mark r .close)))))

/-- The text behind the body of a block starts with a tag. -/
theorem inTag_otherwise {otherwise : Option Block} {t : Trim} {name : String}
    (hn : IsName name) (h : OtherwiseText body otherwise t w) (c : Trim) (rest : List Char) :
    ∃ r, rest.length ≤ r.length ∧ InTag r (w ++ (closingText name c ++ rest)) := by
  cases h with
  | none => exact ⟨rest, Nat.le_refl _, inTag_closingText hn c rest⟩
  | @some l r b b' u otherwise hb hb' _ =>
    refine ⟨u ++ (closingText name c ++ rest), ?_, ?_⟩
    · simp only [List.length_append]
      omega
    · simp only [List.append_assoc]
      exact inTag_else hb hb' _

theorem left_of_mem_misses_elseWord {f : Unit → Rule α} (hblank : headIs isBlank s = false)
    (he : headIs (· = 'e') s = false)
    (hm : m ∈ ((do Grammar.blanks; Grammar.token elseWord >>= f) s).misses) :
    m.left = s.length := by
  have hread : Reads Grammar.blanks s () s := reads_blanks.2 ⟨[], nofun, hblank, rfl⟩
  have hrefuses : Refuses (Grammar.token elseWord) s :=
    refuses_token.2 (stripPrefix_cons_eq_none he)
  exact left_of_refuses_token hrefuses ((silent_blanks.mem_misses_bind hread).1 hm)

/-- The word `else` is looked for in vain at the tag that closes a block. -/
theorem left_of_mem_misses_markedElse {name : String} {c : Trim}
    (hm : m ∈ (Grammar.markedElse rBody (closingText name c ++ rest)).misses) :
    m.left = (['/'] ++ (name.toList ++ (mark c.right ++
      (Output.escaped.closing ++ rest)))).length := by
  simp only [closingText, List.append_assoc] at hm
  exact left_of_mem_misses_elseWord rfl rfl ((mem_misses_tagHead rfl).1 hm)

theorem before_markedElse {name : String} {c : Trim}
    (hm : m ∈ (Grammar.markedElse rBody (closingText name c ++ rest)).misses) :
    rest.length < m.left := by
  rw [left_of_mem_misses_markedElse hm]
  simp only [List.length_append, List.length_cons, List.length_nil]
  omega

theorem before_plainElse {name : String} {c : Trim}
    (hm : m ∈ (Grammar.plainElse rBody (closingText name c ++ rest)).misses) :
    rest.length < m.left := by
  simp only [closingText, List.append_assoc] at hm
  have hafter := ((silent_literal _).mem_misses_bind (a := ()) (reads_literal.2 rfl)).1 hm
  have hleft := left_of_mem_misses_elseWord (by cases c.left <;> rfl) (by cases c.left <;> rfl)
    hafter
  simp only [List.length_append] at hleft
  have hclosing : 0 < Output.escaped.closing.length := by decide
  omega

/-- Whether a block has an alternative or not, a rule for one misses nothing behind its end. -/
theorem before_otherwise {p : Rule β} {otherwise : Option Block} {t c : Trim} {name : String}
    (hbody : MissesBefore rBody body) (hn : IsName name)
    (hclosing : ∀ {m}, m ∈ (p (closingText name c ++ rest)).misses → rest.length < m.left)
    (hguarded : ∀ {r}, rest.length ≤ r.length → (∀ m ∈ (rBody r).misses, rest.length < m.left) →
      Guarded rest.length r p)
    (h : OtherwiseText body otherwise t w)
    (hm : m ∈ (Rule.optional p (w ++ (closingText name c ++ rest))).misses) :
    rest.length < m.left := by
  rw [mem_misses_optional] at hm
  cases h with
  | none => exact hclosing hm
  | @some l r b b' u otherwise hb hb' hu =>
    simp only [List.append_assoc] at hm
    have hlength : rest.length ≤ (u ++ (closingText name c ++ rest)).length := by
      simp only [List.length_append]
      omega
    have hinside : ∀ m ∈ (rBody (u ++ (closingText name c ++ rest))).misses,
        rest.length < m.left := fun m hm =>
      hbody hu endsBlock_closing (inTag_closingText hn c rest) hm
    exact hguarded hlength hinside (inTag_else hb hb' _) hm

section
variable {first : Block} {otherwise : Option Block} {u v : List Char} {t c : Trim}
variable {name name' : String}
variable (hread : ReadsBody rBody body) (hbody : MissesBefore rBody body) (hn : IsName name)
variable (hu : body first u)

theorem length_le_behind (u v w rest : List Char) :
    rest.length ≤ (u ++ (v ++ (w ++ rest))).length := by
  simp only [List.length_append]
  omega

include hread hbody hn hu

/-- The end of a block is read the same way whatever its head was. -/
theorem before_blockTail {rElse : Rule β} {o : β} {f : Block → β → Trim → Node}
    (hv : OtherwiseText body otherwise t v)
    (helse : Reads rElse (v ++ (closingText name c ++ rest)) o (closingText name c ++ rest))
    (hmisses : ∀ m ∈ (rElse (v ++ (closingText name c ++ rest))).misses, rest.length < m.left)
    (hn' : IsName name') : ∀ m ∈ (blockTail rBody rElse name' f
      (u ++ (v ++ (closingText name c ++ rest)))).misses, rest.length < m.left := by
  intro m hm
  rcases mem_misses_bind.1 hm with hm | ⟨_, mid, hmid, hm⟩
  · obtain ⟨r, hr, hin⟩ := inTag_otherwise hn hv c rest
    exact Nat.lt_of_le_of_lt hr (hbody hu (endsBlock_otherwise hv slashTag_closing) hin hm)
  obtain ⟨-, rfl⟩ := (hread hu (endsBlock_otherwise hv slashTag_closing)).functional hmid
  rcases mem_misses_bind.1 hm with hm | ⟨_, mid, hmid, hm⟩
  · exact hmisses m hm
  obtain ⟨-, rfl⟩ := helse.functional hmid
  have hm := (mem_misses_bind_silent fun _ _ => rfl).1 hm
  exact guarded_closingTag (Nat.le_refl _) hn' (inTag_closingText hn c rest) hm

/-- In the head of a block, no rule for blocks misses anything behind the end of the block. -/
theorem before_blockTag (hv : OtherwiseText body otherwise t v) (hi : ∀ r, Stays r rInner)
    (hin : InTag (u ++ (v ++ (closingText name c ++ rest))) s)
    (hm : m ∈ (Grammar.blockTag rInner rBody s).misses) : rest.length < m.left := by
  refine guarded_blockTag (length_le_behind u v _ rest) (hi _) (fun _ _ hn' => ?_) hin hm
  exact before_blockTail hread hbody hn hu hv (reads_markedElse hread hv slashTag_closing)
    (fun _ => before_otherwise hbody hn before_markedElse guarded_markedElse hv) hn'

theorem before_binderTag (hv : OtherwiseText body otherwise .none v) (hi : ∀ r, Stays r rInner)
    (hin : InTag (u ++ (v ++ (closingText name c ++ rest))) s)
    (hm : m ∈ (Grammar.binderTag rInner rBody s).misses) : rest.length < m.left := by
  refine guarded_binderTag (length_le_behind u v _ rest) (hi _) (fun _ _ hn' => ?_) hin hm
  exact before_blockTail hread hbody hn hu hv (reads_plainElse hread hv slashTag_closing)
    (fun _ => before_otherwise hbody hn before_plainElse guarded_plainElse hv) hn'

end

/-! ## Tags -/

/-- Where an inline tag is read, no rule for blocks has been tried. -/
theorem before_node_of_reads {q : Rule Node} {n : Node} {x : List Char} (hi : Stays rest rInner)
    (hs : InTag rest s) (hk : k ≤ rest.length)
    (hq : q ∈ inlineRules rInner ++ [Grammar.partialTag rInner]) (h : Reads q s n x)
    (hm : m ∈ (Grammar.node rInner rBody s).misses) : k < m.left := by
  rcases mem_misses_node hi hs hm with hm | ⟨hrefuses, -⟩
  · exact Nat.lt_of_le_of_lt hk hm
  · exact (h.not_refuses (hrefuses q hq)).elim

/-- The rules for a node miss nothing behind a tag that is read. -/
theorem TagText.before_node (hstays : ∀ r, Stays r rInner)
    (hinner : ∀ params w, inner params w → Tidy w) (hi : ReadsBehindName rInner inner)
    (hread : ReadsBody rBody body) (hbody : MissesBefore rBody body) {n : Node}
    (h : TagText inner body n w) (hm : m ∈ (Grammar.node rInner rBody (w ++ rest)).misses) :
    rest.length < m.left := by
  cases h with
  | @reference output l r b b' path hb hp he hb' =>
    obtain ⟨x, hx, hclose⟩ := inTag_closing output rest
    simp only [List.append_assoc] at hm
    refine before_node_of_reads (hstays x) ?_ hx ?_ (reads_reference hb hp he hb') hm
    · exact tidy_opening _ (tidy_mark l (tidy_blanks hb (hp.tidy (tidy_blanks hb'
        (tidy_mark r hclose)))))
    · cases output <;> simp [inlineRules]
  | @helper output l r b w b' name params hb hn hne he hw hb' =>
    obtain ⟨x, hx, hclose⟩ := inTag_closing output rest
    simp only [List.append_assoc] at hm
    refine before_node_of_reads (hstays x) ?_ hx ?_ (reads_helper hi hb hn hne he hw hb') hm
    · exact tidy_opening _ (tidy_mark l (tidy_blanks hb (tidy_name hn
        (hw.tidy (ParamText.tidy hinner) (tidy_blanks hb' (tidy_mark r hclose))))))
    · cases output <;> simp [inlineRules]
  | @plainPartial l r b b' name hb hn he hb' =>
    have hgreater : Tidy ['>'] := tidy_of_plain (by decide)
    simp only [List.append_assoc] at hm
    refine before_node_of_reads (q := Grammar.partialTag rInner) (hstays rest) ?_ (Nat.le_refl _)
      (by simp) (reads_plainPartial hb hn he hb') hm
    exact tidy_opening _ (tidy_mark l (hgreater (tidy_blanks hb
      (hn.tidy isPlain_of_isPartialNameChar (tidy_blanks hb' (tidy_mark r .close))))))
  | @boundPartial l r b w b' name args hb hn hne he hw hb' =>
    have hgreater : Tidy ['>'] := tidy_of_plain (by decide)
    simp only [List.append_assoc] at hm
    refine before_node_of_reads (q := Grammar.partialTag rInner) (hstays rest) ?_ (Nat.le_refl _)
      (by simp) (reads_boundPartial hi hb hn hne he hw hb') hm
    exact tidy_opening _ (tidy_mark l (hgreater (tidy_blanks hb
      (hn.tidy isPlain_of_isPartialNameChar (hw.tidy (ArgumentText.tidy hinner)
        (tidy_blanks hb' (tidy_mark r .close)))))))
  | @block l r w b u v name params first otherwise between closing hn helse he hw hb hu hv =>
    have hhash : Tidy ['#'] := tidy_of_plain (by decide)
    simp only [List.append_assoc] at hm
    have hin := tidy_opening .escaped (tidy_mark l (hhash (tidy_name hn
      (hw.tidy (ParamText.tidy hinner) (tidy_blanks hb (tidy_mark r (inTag_close
        (u ++ (v ++ (closingText name closing ++ rest))))))))))
    rcases mem_misses_node (hstays _) hin hm with hm | ⟨-, hm | ⟨hrefuses, -⟩⟩
    · exact Nat.lt_of_le_of_lt (length_le_behind u v _ rest) hm
    · exact before_blockTag hread hbody hn hu hv hstays hin hm
    · exact ((reads_blockTag hi hread hn helse he hw hb hu hv).not_refuses hrefuses).elim
  | @binder l r w g b₁ b₂ v b₃ b₄ u e name x params names first otherwise closing hn hne hw hg0 hg
      hb₁ hb₂ hx hv hb₃ hb₄ hu he =>
    have hhash : Tidy ['#'] := tidy_of_plain (by decide)
    have has : Tidy ['a', 's'] := tidy_of_plain (by decide)
    have hbar : Tidy ['|'] := tidy_of_plain (by decide)
    simp only [List.append_assoc] at hm
    have hin := tidy_opening .escaped (tidy_mark l (hhash (tidy_name hn
      (hw.tidy (ParamText.tidy hinner) (tidy_blanks hg (has (tidy_blanks hb₁ (hbar
        (tidy_blanks hb₂ (tidy_name hx (hv.tidy NameText.tidy (tidy_blanks hb₃ (hbar
          (tidy_blanks hb₄ (tidy_mark r (inTag_close
            (u ++ (e ++ (closingText name closing ++ rest)))))))))))))))))))
    rcases mem_misses_node (hstays _) hin hm with hm | ⟨-, hm | ⟨-, hm⟩⟩
    · exact Nat.lt_of_le_of_lt (length_le_behind u e _ rest) hm
    · exact before_blockTag hread hbody hn hu he hstays hin hm
    · exact before_binderTag hread hbody hn hu he hstays hin hm

end BraceTemplate
