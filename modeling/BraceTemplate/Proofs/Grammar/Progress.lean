import BraceTemplate.Proofs.Grammar.Descent

/-!
# Progress

`Rule.many` refuses where a round matches nothing, as such a round could be repeated for ever. In
this grammar that never happens: each rule that is repeated consumes some of the text
(`IsRepeated.advances`). So the repetition would come to an end without the check as well, with the
same reply (`Unrolls`), and it takes no more rounds than there are characters to read.
-/

namespace BraceTemplate

open Rule

namespace Rule

variable {α : Type} {p : Rule α} {s rest : List Char} {r : Reply (List α)}

/-! ## Repetition without a check -/

/-- The rule, read again and again from `s` on for as long as it matches, comes to an end with the
reply `r`. Whether a round has moved on does not matter. -/
inductive Unrolls (p : Rule α) : List Char → Reply (List α) → Prop
  | stop {s : List Char} {ms : List Miss} :
      p s = ⟨.mismatch, ms⟩ → Unrolls p s ⟨.ok [] s, ms⟩
  | tooDeep {s : List Char} {left : Nat} {ms : List Miss} :
      p s = ⟨.tooDeep left, ms⟩ → Unrolls p s ⟨.tooDeep left, ms⟩
  | round {s mid : List Char} {a : α} {ms : List Miss} {r : Reply (List α)} :
      p s = ⟨.ok a mid, ms⟩ → Unrolls p mid r →
      Unrolls p s ⟨r.outcome.map (a :: ·), ms ++ r.misses⟩

/-- What the repetition of a rule that consumes replies, it replies without the check. -/
theorem Consumes.unrolls (hp : p.Consumes) (s : List Char) : Unrolls p s (many p s) := by
  induction hs : s.length using Nat.strongRecOn generalizing s with
  | ind n ih =>
    subst hs
    rcases hps : p s with ⟨⟨a, mid⟩ | _ | left, ms⟩
    · have hreads : Reads p s a mid := by rw [Reads, hps]
      have hlt := hp hreads
      rw [many_of_reads hreads hlt, hps]
      exact .round hps (ih mid.length hlt mid rfl)
    · have hrefuses : Refuses p s := by rw [Refuses, hps]
      rw [many_of_refuses hrefuses, hps]
      exact .stop hps
    · rw [many_of_tooDeep (show (p s).outcome = .tooDeep left by rw [hps]), hps]
      exact .tooDeep hps

/-- And there is no other reply. -/
theorem Consumes.unrolls_iff (hp : p.Consumes) : Unrolls p s r ↔ r = many p s := by
  refine ⟨fun h => ?_, fun h => h ▸ hp.unrolls s⟩
  induction h with
  | @stop s ms hps =>
    have hrefuses : Refuses p s := by rw [Refuses, hps]
    rw [many_of_refuses hrefuses, hps]
  | @tooDeep s left ms hps =>
    rw [many_of_tooDeep (show (p s).outcome = .tooDeep left by rw [hps]), hps]
  | @round s mid a ms r hps _ ih =>
    have hreads : Reads p s a mid := by rw [Reads, hps]
    rw [many_of_reads hreads (hp hreads), hps, ih]

/-- Each round takes at least one character away. -/
theorem length_of_reads_many {as : List α} (h : Reads (many p) s as rest) :
    as.length + rest.length ≤ s.length := by
  induction as generalizing s with
  | nil =>
    obtain ⟨-, rfl⟩ := reads_many_nil.1 h
    simp
  | cons a as ih =>
    obtain ⟨mid, -, hlt, h⟩ := reads_many_cons.1 h
    have := ih h
    rw [List.length_cons]
    omega

theorem consumes_space : Grammar.space.Consumes := by
  intro s a rest h
  obtain ⟨b, hne, -, -, rfl⟩ := reads_space.1 h
  have := List.length_pos_iff.2 hne
  rw [List.length_append]
  omega

end Rule

/-! ## Parts of tags -/

section
variable {rInner : Rule (List Param)} {rBody : Rule Block}

theorem consumes_identifier : Grammar.identifier.Consumes := by
  intro s name rest h
  obtain ⟨hn, -, -, rfl⟩ := reads_identifier.1 h
  have := List.length_pos_iff.2 hn.1
  rw [List.length_append]
  omega

theorem onward_subexpression (hi : rInner.Onward) : (Grammar.subexpression rInner).Onward :=
  (onward_literal _).bind fun _ => onward_blanks.bind fun _ => onward_identifier.bind fun _ =>
    hi.bind fun _ => onward_blanks.bind fun _ => (onward_token _).bind fun _ => onward_pure _

theorem consumes_subexpression (hi : rInner.Onward) :
    (Grammar.subexpression rInner).Consumes :=
  (consumes_literal (by simp)).bind fun _ => onward_blanks.bind fun _ =>
    onward_identifier.bind fun _ => hi.bind fun _ => onward_blanks.bind fun _ =>
      (onward_token _).bind fun _ => onward_pure _

theorem consumes_quotedBy (quote : Char) : (Grammar.quotedBy quote).Consumes :=
  (consumes_literal (by simp)).bind fun _ => (onward_run _).bind fun _ =>
    (onward_literal _).expect.bind fun _ => onward_pure _

theorem consumes_path : Grammar.path.Consumes := by
  refine consumes_identifier.bind fun _ => (Onward.many ?_).bind fun _ => onward_pure _
  refine (onward_literal _).bind fun _ => onward_identifier.orElse ?_
  exact (onward_literal _).bind fun _ => onward_pure _

/-- A parameter is not empty: a variable starts with a name, a quoted text with a quote, and a
subexpression with a parenthesis. -/
theorem advances_parameter (hi : rInner.Onward) : Advances (Grammar.parameter rInner) := by
  refine ⟨onward_parameter hi, fun s p rest h => ?_⟩
  obtain ⟨_, mid, hrefuse, hfirst⟩ := reads_bind.1 h
  obtain ⟨-, rfl⟩ := reads_refuse.1 hrefuse
  refine consumes_firstOf ?_ hfirst
  simp only [List.mem_cons, List.not_mem_nil, or_false, forall_eq_or_imp, forall_eq]
  refine ⟨consumes_path.bind fun _ => onward_pure _, Consumes.bind ?_ fun _ => onward_pure _,
    consumes_subexpression hi⟩
  intro s text rest h
  rcases reads_orElse.1 h with h | ⟨-, h⟩
  · exact consumes_quotedBy _ h
  · exact consumes_quotedBy _ h

theorem advances_argument (hi : rInner.Onward) : Advances (Grammar.argument rInner) :=
  ⟨onward_argument hi, consumes_identifier.bind fun _ => onward_blanks.bind fun _ =>
    (onward_token _).bind fun _ => onward_blanks.bind fun _ =>
      (onward_parameter hi).bind fun _ => onward_pure _⟩

/-- An item behind the first of a list comes after a blank. -/
theorem advances_item {α : Type} {p : Rule α} (hp : p.Onward) :
    Advances (do Grammar.space; p) :=
  ⟨onward_space.bind fun _ => hp, consumes_space.bind fun _ => hp⟩

theorem advances_markedElse (hb : rBody.Onward) : Advances (Grammar.markedElse rBody) :=
  advances_tagHead .escaped fun _ => onward_blanks.bind fun _ =>
    (onward_token _).bind fun _ => onward_tagEnd fun _ => hb.bind fun _ => onward_pure _

theorem advances_plainElse (hb : rBody.Onward) : Advances (Grammar.plainElse rBody) :=
  ⟨onward_plainElse hb, (consumes_literal (by simp [Output.opening])).bind fun _ =>
    onward_blanks.bind fun _ => (onward_token _).bind fun _ =>
      onward_blanks.bind fun _ => (onward_token _).bind fun _ => hb⟩

theorem onward_segment : Grammar.segment.Onward :=
  onward_identifier.orElse ((onward_literal _).bind fun _ => onward_pure _)

end

/-! ## The grammar -/

/-- The rules that the grammar repeats, where `k` levels may still open: a piece of text, a segment
of a path, an item of a list behind its first one, and a node. -/
inductive IsRepeated (k : Nat) : {α : Type} → Rule α → Prop
  | textPiece : IsRepeated k Grammar.textPiece
  | segment : IsRepeated k (do Grammar.literal ['.']; Grammar.segment)
  | parameter : IsRepeated k (do Grammar.space; Grammar.parameter (Grammar.innerParams k))
  | argument : IsRepeated k (do Grammar.space; Grammar.argument (Grammar.innerParams k))
  | name : IsRepeated k (do Grammar.space; Grammar.identifier)
  | node : IsRepeated k (Grammar.node (Grammar.innerParams k) (Grammar.blockBody k))

/-- The rules that never match the empty text: those that are repeated, and those for text, for the
tags and for their parameters and arguments. -/
inductive IsConsuming (k : Nat) : {α : Type} → Rule α → Prop
  | repeated {α : Type} {p : Rule α} : IsRepeated k p → IsConsuming k p
  | content : IsConsuming k Grammar.content
  | reference (output : Output) : IsConsuming k (Grammar.reference output)
  | helper (output : Output) : IsConsuming k (Grammar.helper (Grammar.innerParams k) output)
  | partialTag : IsConsuming k (Grammar.partialTag (Grammar.innerParams k))
  | blockTag : IsConsuming k (Grammar.blockTag (Grammar.innerParams k) (Grammar.blockBody k))
  | binderTag : IsConsuming k (Grammar.binderTag (Grammar.innerParams k) (Grammar.blockBody k))
  | markedElse : IsConsuming k (Grammar.markedElse (Grammar.blockBody k))
  | plainElse : IsConsuming k (Grammar.plainElse (Grammar.blockBody k))
  | closingTag (name : String) : IsConsuming k (Grammar.closingTag name)
  | parameter : IsConsuming k (Grammar.parameter (Grammar.innerParams k))
  | argument : IsConsuming k (Grammar.argument (Grammar.innerParams k))

inductive IsGrammarRule (k : Nat) : {α : Type} → Rule α → Prop
  | consuming {α : Type} {p : Rule α} : IsConsuming k p → IsGrammarRule k p
  | items : IsGrammarRule k (Grammar.items k)
  | blockBody : IsGrammarRule k (Grammar.blockBody k)
  | innerParams : IsGrammarRule k (Grammar.innerParams k)
  | parametersAfterBlanks :
      IsGrammarRule k (Grammar.parametersAfter Grammar.blanks (Grammar.innerParams k))
  | parametersAfterSpace :
      IsGrammarRule k (Grammar.parametersAfter Grammar.space (Grammar.innerParams k))
  | parameters : IsGrammarRule k (Grammar.parameters (Grammar.innerParams k))
  | subexpression : IsGrammarRule k (Grammar.subexpression (Grammar.innerParams k))
  | arguments : IsGrammarRule k (Grammar.arguments (Grammar.innerParams k))
  | names : IsGrammarRule k (Rule.separated Grammar.space Grammar.identifier)
  | path : IsGrammarRule k Grammar.path
  | segment : IsGrammarRule k Grammar.segment
  | identifier : IsGrammarRule k Grammar.identifier
  | partialName : IsGrammarRule k Grammar.partialName
  | quoted : IsGrammarRule k Grammar.quoted
  | tilde : IsGrammarRule k Grammar.tilde
  | blanks : IsGrammarRule k Grammar.blanks
  | space : IsGrammarRule k Grammar.space
  | literal (w : List Char) : IsGrammarRule k (Grammar.literal w)
  | token (w : List Char) : IsGrammarRule k (Grammar.token w)

variable {k : Nat} {α : Type} {p : Rule α}

theorem IsRepeated.advances (h : IsRepeated k p) : Advances p := by
  have hinner := onward_innerParams k
  cases h with
  | textPiece => exact advances_textPiece
  | segment =>
    exact ⟨(onward_literal _).bind fun _ => onward_segment,
      (consumes_literal (by simp)).bind fun _ => onward_segment⟩
  | parameter => exact advances_item (onward_parameter hinner)
  | argument => exact advances_item (onward_argument hinner)
  | name => exact advances_item onward_identifier
  | node => exact advances_node hinner (onward_blockBody k)

theorem IsConsuming.advances (h : IsConsuming k p) : Advances p := by
  have hinner := onward_innerParams k
  have hbody := onward_blockBody k
  cases h with
  | repeated h => exact h.advances
  | content => exact advances_content
  | reference output => exact advances_reference output
  | helper output => exact advances_helper hinner output
  | partialTag => exact advances_partialTag hinner
  | blockTag => exact advances_blockTag hinner hbody
  | binderTag => exact advances_binderTag hinner hbody
  | markedElse => exact advances_markedElse hbody
  | plainElse => exact advances_plainElse hbody
  | closingTag name => exact advances_closingTag name
  | parameter => exact advances_parameter hinner
  | argument => exact advances_argument hinner

theorem IsGrammarRule.onward (h : IsGrammarRule k p) : p.Onward := by
  have hinner := onward_innerParams k
  cases h with
  | consuming h => exact h.advances.onward
  | items => exact onward_items k
  | blockBody => exact onward_blockBody k
  | innerParams => exact hinner
  | parametersAfterBlanks => exact onward_parametersAfter onward_blanks hinner
  | parametersAfterSpace => exact onward_parametersAfter onward_space hinner
  | parameters => exact onward_parameters hinner
  | subexpression => exact onward_subexpression hinner
  | arguments => exact Onward.separated onward_space (onward_argument hinner)
  | names => exact Onward.separated onward_space onward_identifier
  | path => exact onward_path
  | segment => exact onward_segment
  | identifier => exact onward_identifier
  | partialName => exact onward_partialName
  | quoted => exact onward_quoted
  | tilde => exact onward_tilde
  | blanks => exact onward_blanks
  | space => exact onward_space
  | literal w => exact onward_literal w
  | token w => exact onward_token w

/-- Reading always moves on. Of the text it finds a rule leaves an end, and a shorter one if it is a
rule for text, for a tag or for an item of a tag. Where an alternative, an option or a round of a
repetition does not match, reading goes on where that was tried. No round of a repetition matches
nothing: without a check for it each repetition comes to the same end, after no more rounds than
there are characters. Levels are no exception: a template is read to some end if as many of them
may open as it has characters. -/
theorem reading_progresses (k : Nat) :
    (∀ {α : Type} {p : Rule α}, IsConsuming k p →
      ∀ {s a rest}, Reads p s a rest → ∃ w, w ≠ [] ∧ s = w ++ rest) ∧
    (∀ {α : Type} {p : Rule α}, IsGrammarRule k p → ∀ {s a rest}, Reads p s a rest → rest <:+ s) ∧
    (∀ {α : Type} {p q : Rule α} {s a rest}, Reads (p.orElse q) s a rest ↔
      Reads p s a rest ∨ Refuses p s ∧ Reads q s a rest) ∧
    (∀ {α : Type} {p : Rule α} {s rest}, Reads (Rule.optional p) s none rest ↔
      Refuses p s ∧ rest = s) ∧
    (∀ {α : Type} {p : Rule α} {s as rest}, Reads (Rule.many p) s as rest → Refuses p rest) ∧
    (∀ {α : Type} {p : Rule α}, IsRepeated k p → ∀ s,
      (∀ r, Unrolls p s r ↔ r = Rule.many p s) ∧ ¬ Refuses (Rule.many p) s ∧
        ∀ {as rest}, Reads (Rule.many p) s as rest → as.length + rest.length ≤ s.length) ∧
    ∀ s, s.length ≤ k → ∃ b rest, Reads (Grammar.items k) s b rest := by
  refine ⟨fun hp s a rest h => ?_, fun hp s a rest h => hp.onward.rest h, reads_orElse,
    by simp [reads_optional], fun h => (refuses_of_reads_many h).1, fun hp s => ?_,
    fun s => exists_reads_items⟩
  · obtain ⟨w, rfl⟩ := hp.advances.onward.rest h
    refine ⟨w, ?_, rfl⟩
    rintro rfl
    exact Nat.lt_irrefl _ (hp.advances.consumes h)
  · have hconsumes := hp.advances.consumes
    exact ⟨fun r => hconsumes.unrolls_iff, hconsumes.not_refuses_many, length_of_reads_many⟩

end BraceTemplate
