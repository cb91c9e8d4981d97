import BraceTemplate.Proofs.Grammar.Misses
import BraceTemplate.Proofs.Grammar.Written

/-!
# Inside a tag

A tag cannot be left but through its closing braces. No rule for a part of a tag reads a closing
brace, unless it stands in a quoted text, and quoted texts are read from quote to quote. So
wherever such a rule is tried inside a tag, it stays there (`Stays`), and what it misses lies before
the end of the tag. What can stand between the braces is so written that this applies (`Tidy`).
-/

namespace BraceTemplate

open Rule

/-- A character that neither ends a tag nor starts a quoted text. -/
def IsPlain (c : Char) : Prop := c ≠ '}' ∧ ¬ isQuote c

/-- The text is inside a tag, behind which `rest` follows. -/
inductive InTag (rest : List Char) : List Char → Prop
  | close : InTag rest (Output.escaped.closing ++ rest)
  | plain {c : Char} {s : List Char} : IsPlain c → InTag rest s → InTag rest (c :: s)
  | quoted {q : Char} {t s : List Char} : isQuote q → q ∉ t → InTag rest s →
      InTag rest (q :: (t ++ q :: s))

theorem inTag_close (rest : List Char) : InTag rest (Output.escaped.closing ++ rest) := .close

variable {α β : Type} {rest s w : List Char} {k : Nat} {p q : Rule α} {f : α → Rule β}
variable {label : Label} {rInner : Rule (List Param)} {rBody : Rule Block} {output : Output}

theorem isPlain_iff {c : Char} : IsPlain c ↔ c ≠ '}' ∧ c ≠ '\x27' ∧ c ≠ '\x22' := by
  simp [IsPlain, isQuote]

instance (c : Char) : Decidable (IsPlain c) := decidable_of_iff' _ isPlain_iff

instance (w : List Char) : Decidable (∀ c ∈ w, IsPlain c) := List.decidableBAll IsPlain w

theorem InTag.tail {c : Char} (hc : IsPlain c) (h : InTag rest (c :: s)) : InTag rest s := by
  cases h with
  | close => exact (hc.1 rfl).elim
  | plain _ h => exact h
  | quoted hq => exact (hc.2 hq).elim

theorem InTag.drop (hw : ∀ c ∈ w, IsPlain c) (h : InTag rest (w ++ s)) : InTag rest s := by
  induction w with
  | nil => exact h
  | cons c w ih => exact ih (fun d hd => hw d (by simp [hd])) (h.tail (hw c (by simp)))

theorem InTag.length_lt (h : InTag rest s) : rest.length < s.length := by
  induction h with
  | close =>
    simp only [Output.closing, List.length_append, List.length_cons, List.length_nil]
    omega
  | plain _ _ ih =>
    rw [List.length_cons]
    omega
  | quoted _ _ _ ih =>
    simp only [List.length_cons, List.length_append]
    omega

/-- Inside a tag an opening quote has one that closes it. -/
theorem InTag.of_quote {c : Char} (hc : isQuote c) (h : InTag rest (c :: s)) :
    ∃ t r, c ∉ t ∧ s = t ++ c :: r ∧ InTag rest r := by
  cases h with
  | close => rcases hc with hc | hc <;> cases hc
  | plain hplain _ => exact (hplain.2 hc).elim
  | quoted _ ht h => exact ⟨_, _, ht, rfl, h⟩

theorem InTag.of_quoted {c : Char} {t : List Char} (hc : isQuote c) (ht : c ∉ t)
    (h : InTag rest (c :: (t ++ c :: s))) : InTag rest s := by
  obtain ⟨t', r, ht', heq, hr⟩ := h.of_quote hc
  have hrun : ∀ {t : List Char}, c ∉ t → ∀ d ∈ t, decide (d ≠ c) = true := fun ht d hd =>
    decide_eq_true fun heq => ht (heq ▸ hd)
  have hstop : ∀ u, headIs (· ≠ c) (c :: u) = false := fun u => by simp
  -- both texts run up to the first quote
  have h1 := run_unique.2 ⟨hrun ht, hstop s, heq.symm⟩
  have h2 := run_unique.2 ⟨hrun ht', hstop r, rfl⟩
  obtain rfl : s = r := (List.cons.inj (h1.2.trans h2.2.symm)).2
  exact hr

theorem InTag.of_close (h : InTag rest (Output.escaped.closing ++ s)) : s = rest := by
  generalize ht : Output.escaped.closing ++ s = t at h
  cases h with
  | close => exact List.append_cancel_left ht
  | plain hc _ =>
    cases ht
    exact (hc.1 rfl).elim
  | quoted hq _ _ =>
    obtain rfl := (List.cons.inj ht).1
    rcases hq with hq | hq <;> cases hq

/-! ## Rules that stay inside -/

/-- Tried inside a tag, the rule stays inside, and so do its misses. -/
structure Stays (rest : List Char) (p : Rule α) : Prop where
  misses : ∀ {s m}, InTag rest s → m ∈ (p s).misses → rest.length < m.left
  reads : ∀ {s a r}, InTag rest s → Reads p s a r → InTag rest r

theorem Stays.of_silent (hp : p.Silent)
    (h : ∀ {s a r}, InTag rest s → Reads p s a r → InTag rest r) : Stays rest p :=
  ⟨fun _ hm => (hp.not_mem hm).elim, h⟩

theorem stays_pure (a : α) : Stays rest (pure a : Rule α) := by
  refine .of_silent (fun _ => rfl) fun hs h => ?_
  rwa [(reads_pure.1 h).2]

theorem Stays.bind (hp : Stays rest p) (hf : ∀ a, Stays rest (f a)) : Stays rest (p >>= f) := by
  refine ⟨fun hs hm => ?_, fun hs h => ?_⟩
  · rcases mem_misses_bind.1 hm with hm | ⟨a, mid, ha, hm⟩
    · exact hp.misses hs hm
    · exact (hf a).misses (hp.reads hs ha) hm
  · obtain ⟨a, mid, ha, hb⟩ := reads_bind.1 h
    exact (hf a).reads (hp.reads hs ha) hb

theorem Stays.orElse (hp : Stays rest p) (hq : Stays rest q) : Stays rest (p.orElse q) := by
  refine ⟨fun hs hm => ?_, fun hs h => ?_⟩
  · rcases mem_misses_orElse.1 hm with hm | ⟨-, hm⟩
    · exact hp.misses hs hm
    · exact hq.misses hs hm
  · rcases reads_orElse.1 h with h | ⟨-, h⟩
    · exact hp.reads hs h
    · exact hq.reads hs h

theorem stays_firstOf {ps : List (Rule α)} (h : ∀ p ∈ ps, Stays rest p) :
    Stays rest (firstOf ps) := by
  induction ps with
  | nil => exact .of_silent (fun _ => rfl) fun _ h => (not_reads_fail h).elim
  | cons p ps ih => exact (h p (by simp)).orElse (ih fun q hq => h q (by simp [hq]))

theorem Stays.optional (hp : Stays rest p) : Stays rest (Rule.optional p) :=
  (hp.bind fun _ => stays_pure _).orElse (stays_pure _)

theorem Stays.expect (hp : Stays rest p) : Stays rest (Rule.expect label p) := by
  refine ⟨fun hs hm => ?_, fun hs h => hp.reads hs (reads_expect.1 h)⟩
  rcases mem_misses_expect.1 hm with hm | ⟨-, rfl⟩
  · exact hp.misses hs hm
  · exact hs.length_lt

theorem Stays.many (hp : Stays rest p) : Stays rest (Rule.many p) := by
  refine ⟨fun {s m} hs hm => ?_, fun {s as r} hs h => ?_⟩
  · induction hl : s.length using Nat.strongRecOn generalizing s with
    | ind n ih =>
      subst hl
      rcases mem_misses_many.1 hm with hm | ⟨a, mid, ha, hlt, hm⟩
      · exact hp.misses hs hm
      · exact ih mid.length hlt (hp.reads hs ha) hm rfl
  · induction as generalizing s with
    | nil => rwa [(reads_many_nil.1 h).2]
    | cons a as ih =>
      obtain ⟨mid, ha, -, h⟩ := reads_many_cons.1 h
      exact ih (hp.reads hs ha) h

theorem Stays.separated {separator : Rule Unit} (hs : Stays rest separator) (hp : Stays rest p) :
    Stays rest (Rule.separated separator p) :=
  hp.bind fun _ => (Stays.many (hs.bind fun _ => hp)).bind fun _ => stays_pure _

theorem stays_refuse (ahead : List Char → Bool) : Stays rest (Rule.refuse ahead) := by
  refine .of_silent (fun _ => rfl) fun hs h => ?_
  rwa [(reads_refuse.1 h).2]

/-! ## Tokens -/

theorem stays_literal (hw : ∀ c ∈ w, IsPlain c) : Stays rest (Grammar.literal w) := by
  refine .of_silent (silent_literal w) fun hs h => ?_
  rw [reads_literal.1 h] at hs
  exact hs.drop hw

theorem stays_token (hw : ∀ c ∈ w, IsPlain c) : Stays rest (Grammar.token w) :=
  (stays_literal hw).expect

section
variable {class_ : Char → Bool}

theorem stays_run (hc : ∀ c, class_ c = true → IsPlain c) : Stays rest (Grammar.run class_) := by
  refine .of_silent (silent_run _) fun hs h => ?_
  obtain ⟨hcs, -, rfl⟩ := reads_run.1 h
  exact hs.drop fun c hmem => hc c (hcs c hmem)

theorem stays_run1 (hc : ∀ c, class_ c = true → IsPlain c) : Stays rest (Grammar.run1 class_) := by
  refine .of_silent (silent_run1 _) fun hs h => ?_
  obtain ⟨-, hcs, -, rfl⟩ := reads_run1.1 h
  exact hs.drop fun c hmem => hc c (hcs c hmem)

/-- A class without the closing brace and the quotes has plain characters only. -/
theorem isPlain_of_class {c : Char} (h : ['}', '\x27', '\x22'].all (fun d => !class_ d) = true)
    (hc : class_ c = true) : IsPlain c := by
  simp only [List.all_cons, List.all_nil, Bool.and_true, Bool.and_eq_true,
    Bool.not_eq_eq_eq_not, Bool.not_true] at h
  refine isPlain_iff.2 ⟨?_, ?_, ?_⟩
  all_goals
    rintro rfl
    simp [hc] at h

theorem stays_word (hc : ∀ c, class_ c = true → IsPlain c) : Stays rest (Rule.expect label do
    Rule.refuse closesElse
    return String.ofList (← Grammar.run1 class_)) :=
  Stays.expect ((stays_refuse _).bind fun _ => (stays_run1 hc).bind fun _ => stays_pure _)

end

theorem isPlain_of_isBlank (c : Char) (h : isBlank c = true) : IsPlain c :=
  isPlain_of_class (by decide) h

theorem isPlain_of_isNameChar (c : Char) (h : isNameChar c = true) : IsPlain c :=
  isPlain_of_class (by decide) h

theorem isPlain_of_isPartialNameChar (c : Char) (h : isPartialNameChar c = true) : IsPlain c :=
  isPlain_of_class (by decide) h

theorem isPlain_of_isPathChar (c : Char) (h : isPathChar c = true) : IsPlain c :=
  isPlain_of_class (by decide) h

theorem stays_blanks : Stays rest Grammar.blanks :=
  (stays_run isPlain_of_isBlank).bind fun _ => stays_pure _

theorem stays_space : Stays rest Grammar.space :=
  (stays_run1 isPlain_of_isBlank).bind fun _ => stays_pure _

theorem stays_tilde : Stays rest Grammar.tilde :=
  (stays_literal (by decide)).optional.bind fun _ => stays_pure _

theorem stays_identifier : Stays rest Grammar.identifier := stays_word isPlain_of_isNameChar

theorem stays_partialName : Stays rest Grammar.partialName :=
  stays_word isPlain_of_isPartialNameChar

theorem stays_path : Stays rest Grammar.path := by
  refine stays_identifier.bind fun _ => Stays.bind (Stays.many ?_) fun _ => stays_pure _
  refine (stays_literal (by decide)).bind fun _ => stays_identifier.orElse ?_
  exact (stays_literal (by decide)).bind fun _ => stays_pure _

/-- Inside a tag each quoted text that starts is read, so nothing is missed. -/
theorem stays_quotedBy {c : Char} (hc : isQuote c) : Stays rest (Grammar.quotedBy c) := by
  refine ⟨fun hs hm => ?_, fun hs h => ?_⟩
  · rcases mem_misses_bind.1 hm with hm | ⟨_, mid, hquote, hm⟩
    · exact ((silent_literal _).not_mem hm).elim
    rcases mem_misses_bind.1 hm with hm | ⟨cs, mid', hrun, hm⟩
    · exact ((silent_run _).not_mem hm).elim
    rcases mem_misses_bind.1 hm with hm | ⟨_, _, -, hm⟩
    · rcases mem_misses_expect.1 hm with hm | ⟨hrefuses, -⟩
      · exact ((silent_literal _).not_mem hm).elim
      have hno : Refuses (Grammar.quotedBy c) _ := hquote.bind_refuses
        (hrun.bind_refuses (Refuses.bind (refuses_expect.2 hrefuses)))
      obtain rfl := reads_literal.1 hquote
      obtain ⟨t, r, ht, rfl, -⟩ := InTag.of_quote hc hs
      have hyes : Reads (Grammar.quotedBy c) (c :: (t ++ c :: r)) (String.ofList t) r :=
        reads_quotedBy.2 (by simpa using ht)
      exact (hyes.not_refuses hno).elim
    · exact (List.not_mem_nil hm).elim
  · obtain ⟨ht, rfl⟩ := reads_quotedBy.1 h
    exact hs.of_quoted hc ht

theorem stays_quoted : Stays rest Grammar.quoted :=
  (stays_quotedBy (.inl rfl)).orElse (stays_quotedBy (.inr rfl))

/-! ## Parameters -/

theorem stays_parameter (hi : Stays rest rInner) : Stays rest (Grammar.parameter rInner) := by
  refine (stays_refuse _).bind fun _ => stays_firstOf ?_
  simp only [List.mem_cons, List.not_mem_nil, or_false, forall_eq_or_imp, forall_eq]
  refine ⟨stays_path.bind fun _ => stays_pure _, stays_quoted.bind fun _ => stays_pure _, ?_⟩
  refine (stays_literal (by decide)).bind fun _ => stays_blanks.bind fun _ => ?_
  refine stays_identifier.bind fun _ => hi.bind fun _ => ?_
  exact stays_blanks.bind fun _ => (stays_token (by decide)).bind fun _ => stays_pure _

theorem stays_parameters (hi : Stays rest rInner) : Stays rest (Grammar.parameters rInner) :=
  Stays.separated stays_space (stays_parameter hi)

theorem stays_parametersAfter {before : Rule Unit} (hb : Stays rest before)
    (hi : Stays rest rInner) : Stays rest (Grammar.parametersAfter before rInner) :=
  (Stays.optional (hb.bind fun _ => stays_parameters hi)).bind fun _ => stays_pure _

theorem stays_argument (hi : Stays rest rInner) : Stays rest (Grammar.argument rInner) := by
  refine stays_identifier.bind fun _ => stays_blanks.bind fun _ => ?_
  refine (stays_token (by decide)).bind fun _ => stays_blanks.bind fun _ => ?_
  exact (stays_parameter hi).bind fun _ => stays_pure _

theorem stays_innerParams (budget : Nat) : Stays rest (Grammar.innerParams budget) := by
  induction budget with
  | zero => exact ⟨fun _ hm => (List.not_mem_nil hm).elim, fun _ h => by cases h⟩
  | succ budget ih => exact stays_parametersAfter stays_blanks ih

/-! ## Rules that end a tag -/

/-- Tried inside a tag, the rule misses nothing in the last `k` characters of the text. -/
def Guarded (k : Nat) (rest : List Char) (p : Rule α) : Prop :=
  ∀ ⦃s m⦄, InTag rest s → m ∈ (p s).misses → k < m.left

theorem Rule.Silent.guarded (hp : p.Silent) : Guarded k rest p :=
  fun _ _ _ hm => (hp.not_mem hm).elim

theorem guarded_firstOf {ps : List (Rule α)} (h : ∀ p ∈ ps, Guarded k rest p) :
    Guarded k rest (firstOf ps) := by
  intro s m hs hm
  obtain ⟨p, hp, hm⟩ := exists_of_mem_misses_firstOf hm
  exact h p hp hs hm

section
variable (hk : k ≤ rest.length)
include hk

theorem Stays.guarded (hp : Stays rest p) (hf : ∀ a, Guarded k rest (f a)) :
    Guarded k rest (p >>= f) := by
  intro s m hs hm
  rcases mem_misses_bind.1 hm with hm | ⟨a, mid, ha, hm⟩
  · exact Nat.lt_of_le_of_lt hk (hp.misses hs hm)
  · exact hf a (hp.reads hs ha) hm

/-- A rule that starts with a name may use that it has read one. -/
theorem guarded_identifier {f : String → Rule β}
    (hf : ∀ name, IsName name → Guarded k rest (f name)) :
    Guarded k rest (Grammar.identifier >>= f) := by
  intro s m hs hm
  rcases mem_misses_bind.1 hm with hm | ⟨name, mid, hname, hm⟩
  · exact Nat.lt_of_le_of_lt hk (stays_identifier.misses hs hm)
  · exact hf name (reads_identifier.1 hname).1 (stays_identifier.reads hs hname) hm

theorem before_token (hs : InTag rest s) {m : Miss} (hm : m ∈ (Grammar.token w s).misses) :
    k < m.left := by
  rcases mem_misses_expect.1 hm with hm | ⟨-, rfl⟩
  · exact ((silent_literal _).not_mem hm).elim
  · exact Nat.lt_of_le_of_lt hk hs.length_lt

/-- Behind the closing braces of an inline tag nothing more is read. -/
theorem guarded_close {f : Unit → Rule β} (hf : ∀ a, (f a).Silent) :
    Guarded k rest (Grammar.close output >>= f) := by
  intro s m hs hm
  rcases mem_misses_bind.1 hm with hm | ⟨a, mid, -, hm⟩
  · exact before_token hk hs hm
  · exact ((hf a).not_mem hm).elim

/-- Behind those of a block the text behind the tag is read. -/
theorem guarded_close_body {f : Unit → Rule β} (hf : ∀ m ∈ (f () rest).misses, k < m.left) :
    Guarded k rest (Grammar.close .escaped >>= f) := by
  intro s m hs hm
  rcases mem_misses_bind.1 hm with hm | ⟨a, mid, hmid, hm⟩
  · exact before_token hk hs hm
  · obtain rfl := reads_close.1 hmid
    obtain rfl := hs.of_close
    exact hf m hm

/-! ## Tags -/

theorem guarded_tagHead {f : Bool → Rule β} (hf : ∀ l, Guarded k rest (f l)) :
    Guarded k rest (do Grammar.literal output.opening; let left ← Grammar.tilde; f left) := by
  refine Stays.guarded hk (stays_literal ?_) fun _ => Stays.guarded hk stays_tilde hf
  cases output <;> decide

theorem guarded_tagEnd {f : Bool → Rule β} (hf : ∀ r, (f r).Silent) :
    Guarded k rest (do
      Grammar.blanks; let right ← Grammar.tilde; Grammar.close output; f right) :=
  Stays.guarded hk stays_blanks fun _ => Stays.guarded hk stays_tilde fun r =>
    guarded_close hk fun _ => hf r

theorem guarded_reference : Guarded k rest (Grammar.reference output) :=
  guarded_tagHead hk fun _ => Stays.guarded hk stays_blanks fun _ => Stays.guarded hk stays_path
    fun _ => guarded_tagEnd hk fun _ _ => rfl

theorem guarded_helper (hi : Stays rest rInner) :
    Guarded k rest (Grammar.helper rInner output) :=
  guarded_tagHead hk fun _ => Stays.guarded hk stays_blanks fun _ =>
    Stays.guarded hk stays_identifier fun _ =>
      Stays.guarded hk (stays_parametersAfter stays_blanks hi) fun _ =>
        guarded_tagEnd hk fun _ _ => rfl

theorem guarded_partialTag (hi : Stays rest rInner) :
    Guarded k rest (Grammar.partialTag rInner) := by
  refine guarded_tagHead hk fun _ => Stays.guarded hk (stays_token (by decide)) fun _ => ?_
  refine Stays.guarded hk stays_blanks fun _ => Stays.guarded hk stays_partialName fun _ => ?_
  refine Stays.guarded hk stays_blanks fun _ => Stays.guarded hk
    (Stays.separated stays_space (stays_argument hi)).optional fun args => ?_
  refine guarded_tagEnd hk fun _ _ => ?_
  split <;> rfl

end

end BraceTemplate
