import BraceTemplate.Proofs.Grammar.Misses

/-!
# How deep reading can go

A rule goes down a level only behind a character that it has consumed: the parenthesis of a
subexpression or the braces of a block. So reading never opens more levels than there are
characters, and it comes to an end without a limit (`Shallow`).
-/

namespace BraceTemplate

namespace Rule

variable {α β : Type} {n : Nat} {p q : Rule α} {f : α → Rule β}

/-- The rule goes forward, and in a text of fewer than `n` characters it does not nest too deep. -/
structure Shallow (n : Nat) (p : Rule α) : Prop where
  onward : p.Onward
  outcome : ∀ {s left}, s.length < n → (p s).outcome ≠ .tooDeep left

theorem Shallow.mono {m : Nat} (hp : Shallow n p) (h : m ≤ n) : Shallow m p :=
  ⟨hp.onward, fun hs => hp.outcome (Nat.lt_of_lt_of_le hs h)⟩

theorem shallow_pure (a : α) : Shallow n (pure a : Rule α) :=
  ⟨onward_pure a, fun _ h => by cases h⟩

theorem Shallow.bind (hp : Shallow n p) (hf : ∀ a, Shallow n (f a)) : Shallow n (p >>= f) := by
  refine ⟨hp.onward.bind fun a => (hf a).onward, fun hs h => ?_⟩
  rcases tooDeep_bind h with h | ⟨a, mid, ha, h⟩
  · exact hp.outcome hs h
  · exact (hf a).outcome (Nat.lt_of_le_of_lt (hp.onward.rest ha).length_le hs) h

/-- Behind a rule that consumes there is one character less to read. -/
theorem Shallow.bind_consumes (hp : Shallow (n + 1) p) (hc : p.Consumes)
    (hf : ∀ a, Shallow n (f a)) : Shallow (n + 1) (p >>= f) := by
  refine ⟨hp.onward.bind fun a => (hf a).onward, fun hs h => ?_⟩
  rcases tooDeep_bind h with h | ⟨a, mid, ha, h⟩
  · exact hp.outcome hs h
  · have hlt := hc ha
    exact (hf a).outcome (by omega) h

theorem Shallow.orElse (hp : Shallow n p) (hq : Shallow n q) : Shallow n (p.orElse q) := by
  refine ⟨hp.onward.orElse hq.onward, fun hs h => ?_⟩
  rcases tooDeep_orElse h with h | h
  · exact hp.outcome hs h
  · exact hq.outcome hs h

theorem shallow_firstOf {ps : List (Rule α)} (h : ∀ p ∈ ps, Shallow n p) :
    Shallow n (firstOf ps) := by
  induction ps with
  | nil => exact ⟨onward_firstOf (by simp), fun _ h => by cases h⟩
  | cons p ps ih => exact (h p (by simp)).orElse (ih fun q hq => h q (by simp [hq]))

theorem Shallow.optional (hp : Shallow n p) : Shallow n (Rule.optional p) :=
  (hp.bind fun _ => shallow_pure _).orElse (shallow_pure _)

theorem Shallow.expect {label : Label} (hp : Shallow n p) : Shallow n (Rule.expect label p) :=
  ⟨hp.onward.expect, fun hs h => hp.outcome hs (tooDeep_expect h)⟩

theorem many_of_tooDeep {left : Nat} {s : List Char} (h : (p s).outcome = .tooDeep left) :
    many p s = ⟨.tooDeep left, (p s).misses⟩ := by
  rw [many]
  rcases hps : p s with ⟨o, ms⟩
  rw [hps] at h
  obtain rfl : o = .tooDeep left := h
  rfl

theorem Shallow.many (hp : Shallow n p) : Shallow n (Rule.many p) := by
  refine ⟨hp.onward.many, fun {s left} hs h => ?_⟩
  induction hlen : s.length using Nat.strongRecOn generalizing s with
  | ind l ih =>
    subst hlen
    rcases ho : (p s).outcome with ⟨a, mid⟩ | _ | left'
    · by_cases hlt : mid.length < s.length
      · rw [many_of_reads ho hlt] at h
        refine ih mid.length hlt (by omega) ?_ rfl
        rcases hm : (Rule.many p mid).outcome with _ | _ | _ <;> rw [hm] at h <;> cases h
        rfl
      · rw [Rule.many] at h
        rcases hps : p s with ⟨o, ms⟩
        rw [hps] at ho h
        obtain rfl : o = .ok a mid := ho
        simp only [if_neg hlt] at h
        cases h
    · rw [many_of_refuses ho] at h
      cases h
    · exact hp.outcome hs ho

theorem Shallow.separated {separator : Rule Unit} (hs : Shallow n separator) (hp : Shallow n p) :
    Shallow n (Rule.separated separator p) :=
  hp.bind fun _ => (Shallow.many (hs.bind fun _ => hp)).bind fun _ => shallow_pure _

end Rule

open Rule

/-! ## Tokens -/

variable {α : Type} {n : Nat} {p : Char → Bool}

theorem shallow_refuse (ahead : List Char → Bool) : Shallow n (Rule.refuse ahead) := by
  refine ⟨onward_refuse ahead, fun {s left} _ h => ?_⟩
  change (if ahead s then _ else _) = _ at h
  split at h <;> cases h

theorem shallow_literal (w : List Char) : Shallow n (Grammar.literal w) := by
  refine ⟨onward_literal w, fun _ h => ?_⟩
  unfold Grammar.literal at h
  split at h <;> cases h

theorem shallow_token (w : List Char) : Shallow n (Grammar.token w) := (shallow_literal w).expect

theorem shallow_run (p : Char → Bool) : Shallow n (Grammar.run p) :=
  ⟨onward_run p, fun _ h => by cases h⟩

theorem shallow_run1 (p : Char → Bool) : Shallow n (Grammar.run1 p) := by
  refine ⟨onward_run1 p, fun _ h => ?_⟩
  unfold Grammar.run1 at h
  split at h <;> cases h

theorem shallow_blanks : Shallow n Grammar.blanks := (shallow_run _).bind fun _ => shallow_pure _

theorem shallow_space : Shallow n Grammar.space := (shallow_run1 _).bind fun _ => shallow_pure _

theorem shallow_tilde : Shallow n Grammar.tilde :=
  (shallow_literal _).optional.bind fun _ => shallow_pure _

theorem shallow_word {label : Label} : Shallow n (Rule.expect label do
    Rule.refuse closesElse
    return String.ofList (← Grammar.run1 p)) :=
  Shallow.expect ((shallow_refuse _).bind fun _ => (shallow_run1 _).bind fun _ => shallow_pure _)

theorem shallow_identifier : Shallow n Grammar.identifier := shallow_word

theorem shallow_partialName : Shallow n Grammar.partialName := shallow_word

theorem shallow_path : Shallow n Grammar.path := by
  refine shallow_identifier.bind fun _ => Shallow.bind (Shallow.many ?_) fun _ => shallow_pure _
  refine (shallow_literal _).bind fun _ => shallow_identifier.orElse ?_
  exact (shallow_literal _).bind fun _ => shallow_pure _

theorem shallow_quotedBy (quote : Char) : Shallow n (Grammar.quotedBy quote) :=
  (shallow_literal _).bind fun _ => (shallow_run _).bind fun _ =>
    (shallow_literal _).expect.bind fun _ => shallow_pure _

theorem shallow_quoted : Shallow n Grammar.quoted :=
  (shallow_quotedBy _).orElse (shallow_quotedBy _)

theorem shallow_textPiece : Shallow n Grammar.textPiece := by
  refine shallow_firstOf ?_
  simp only [List.mem_cons, List.not_mem_nil, or_false, forall_eq_or_imp, forall_eq]
  exact ⟨shallow_run1 _, (shallow_literal _).bind fun _ => (shallow_refuse _).bind fun _ =>
    shallow_pure _, (shallow_literal _).bind fun _ => shallow_pure _⟩

theorem shallow_content : Shallow n Grammar.content :=
  Shallow.bind (shallow_textPiece.bind fun _ => shallow_textPiece.many.bind fun _ =>
    shallow_pure _) fun _ => shallow_pure _

/-! ## Tags -/

/-- Behind the opening braces of a tag there are fewer characters to read. -/
theorem shallow_tagHead (output : Output) {f : Bool → Rule α} (hf : ∀ l, Shallow n (f l)) :
    Shallow (n + 1) (do Grammar.literal output.opening; let left ← Grammar.tilde; f left) := by
  refine (shallow_literal _).bind_consumes (consumes_literal ?_) fun _ => shallow_tilde.bind hf
  cases output <;> simp [Output.opening]

theorem shallow_tagEnd {output : Output} {f : Bool → Rule α} (hf : ∀ r, Shallow n (f r)) :
    Shallow n (do
      Grammar.blanks; let right ← Grammar.tilde; Grammar.close output; f right) :=
  shallow_blanks.bind fun _ => shallow_tilde.bind fun r => (shallow_token _).bind fun _ => hf r

theorem shallow_reference (output : Output) : Shallow (n + 1) (Grammar.reference output) :=
  shallow_tagHead output fun _ => shallow_blanks.bind fun _ => shallow_path.bind fun _ =>
    shallow_tagEnd fun _ => shallow_pure _

theorem shallow_closingTag (name : String) : Shallow (n + 1) (Grammar.closingTag name) :=
  shallow_tagHead .escaped fun _ => (shallow_token _).bind fun _ =>
    (shallow_literal _).expect.bind fun _ => shallow_tilde.bind fun _ =>
      (shallow_token _).bind fun _ => shallow_pure _

section
variable {rInner : Rule (List Param)} {rBody : Rule Block}

theorem shallow_subexpression (hi : Shallow n rInner) :
    Shallow (n + 1) (Grammar.subexpression rInner) := by
  refine (shallow_literal _).bind_consumes (consumes_literal (by simp)) fun _ => ?_
  refine shallow_blanks.bind fun _ => shallow_identifier.bind fun _ => hi.bind fun _ => ?_
  exact shallow_blanks.bind fun _ => (shallow_token _).bind fun _ => shallow_pure _

theorem shallow_parameter (hi : Shallow n rInner) :
    Shallow (n + 1) (Grammar.parameter rInner) := by
  refine (shallow_refuse _).bind fun _ => shallow_firstOf ?_
  simp only [List.mem_cons, List.not_mem_nil, or_false, forall_eq_or_imp, forall_eq]
  exact ⟨shallow_path.bind fun _ => shallow_pure _, shallow_quoted.bind fun _ => shallow_pure _,
    shallow_subexpression hi⟩

theorem shallow_parameters (hi : Shallow n rInner) :
    Shallow (n + 1) (Grammar.parameters rInner) :=
  Shallow.separated shallow_space (shallow_parameter hi)

theorem shallow_parametersAfter {before : Rule Unit} (hb : Shallow (n + 1) before)
    (hi : Shallow n rInner) : Shallow (n + 1) (Grammar.parametersAfter before rInner) :=
  (Shallow.optional (hb.bind fun _ => shallow_parameters hi)).bind fun _ => shallow_pure _

theorem shallow_argument (hi : Shallow n rInner) :
    Shallow (n + 1) (Grammar.argument rInner) :=
  shallow_identifier.bind fun _ => shallow_blanks.bind fun _ => (shallow_token _).bind fun _ =>
    shallow_blanks.bind fun _ => (shallow_parameter hi).bind fun _ => shallow_pure _

variable (hi : Shallow n rInner)
include hi

theorem shallow_helper (output : Output) : Shallow (n + 1) (Grammar.helper rInner output) := by
  refine shallow_tagHead output fun _ => shallow_blanks.bind fun _ => ?_
  refine shallow_identifier.bind fun _ => ?_
  refine ((shallow_parametersAfter shallow_blanks hi).mono (Nat.le_succ n)).bind fun _ => ?_
  exact shallow_tagEnd fun _ => shallow_pure _

theorem shallow_partialTag : Shallow (n + 1) (Grammar.partialTag rInner) := by
  have hargs := (Shallow.separated shallow_space (shallow_argument hi)).mono (Nat.le_succ n)
  refine shallow_tagHead .escaped fun _ => (shallow_token _).bind fun _ => ?_
  refine shallow_blanks.bind fun _ => shallow_partialName.bind fun _ => ?_
  refine shallow_blanks.bind fun _ => hargs.optional.bind fun _ => shallow_tagEnd fun _ => ?_
  split
  · exact shallow_pure _
  · exact shallow_pure _

omit hi in
theorem shallow_markedElse (hb : Shallow n rBody) : Shallow (n + 1) (Grammar.markedElse rBody) :=
  shallow_tagHead .escaped fun _ => shallow_blanks.bind fun _ => (shallow_token _).bind fun _ =>
    shallow_tagEnd fun _ => hb.bind fun _ => shallow_pure _

omit hi in
theorem shallow_plainElse (hb : Shallow n rBody) :
    Shallow (n + 1) (Grammar.plainElse rBody) := by
  refine (shallow_literal _).bind_consumes (consumes_literal (by simp [Output.opening])) fun _ => ?_
  exact shallow_blanks.bind fun _ => (shallow_token _).bind fun _ => shallow_blanks.bind fun _ =>
    (shallow_token _).bind fun _ => hb

theorem shallow_blockTag (hb : Shallow n rBody) :
    Shallow (n + 1) (Grammar.blockTag rInner rBody) := by
  have hparams := (shallow_parametersAfter shallow_space hi).mono (Nat.le_succ n)
  have helse := ((shallow_markedElse hb).mono (Nat.le_succ n)).optional
  refine shallow_tagHead .escaped fun _ => (shallow_token _).bind fun _ => ?_
  refine shallow_identifier.bind fun name => hparams.bind fun _ => shallow_tagEnd fun _ => ?_
  refine hb.bind fun _ => helse.bind fun _ => ?_
  exact ((shallow_closingTag name).mono (Nat.le_succ n)).bind fun _ => shallow_pure _

theorem shallow_binderTag (hb : Shallow n rBody) :
    Shallow (n + 1) (Grammar.binderTag rInner rBody) := by
  have hparams := (shallow_parameters hi).mono (Nat.le_succ n)
  have helse := ((shallow_plainElse hb).mono (Nat.le_succ n)).optional
  refine shallow_tagHead .escaped fun _ => (shallow_token _).bind fun _ => ?_
  refine shallow_identifier.bind fun name => shallow_space.bind fun _ => hparams.bind fun _ => ?_
  refine shallow_space.bind fun _ => (shallow_token _).bind fun _ => ?_
  refine shallow_blanks.bind fun _ => (shallow_token _).bind fun _ => ?_
  refine shallow_blanks.bind fun _ => ?_
  refine (Shallow.separated shallow_space shallow_identifier).bind fun _ => ?_
  refine shallow_blanks.bind fun _ => (shallow_token _).bind fun _ => shallow_tagEnd fun _ => ?_
  refine hb.bind fun _ => helse.bind fun _ => ?_
  exact ((shallow_closingTag name).mono (Nat.le_succ n)).bind fun _ => shallow_pure _

theorem shallow_node (hb : Shallow n rBody) : Shallow (n + 1) (Grammar.node rInner rBody) := by
  refine shallow_firstOf ?_
  simp only [List.mem_cons, List.not_mem_nil, or_false, forall_eq_or_imp, forall_eq]
  exact ⟨shallow_content, shallow_reference _, shallow_reference _, shallow_helper hi _,
    shallow_helper hi _, shallow_partialTag hi, shallow_blockTag hi hb, shallow_binderTag hi hb⟩

end

/-! ## The grammar -/

variable {k : Nat}

theorem shallow_innerParams (k : Nat) : Shallow k (Grammar.innerParams k) := by
  induction k with
  | zero => exact ⟨onward_tooDeep, fun hs => (Nat.not_lt_zero _ hs).elim⟩
  | succ k ih => exact shallow_parametersAfter shallow_blanks ih

theorem shallow_blockBody (k : Nat) : Shallow k (Grammar.blockBody k) := by
  induction k with
  | zero => exact ⟨onward_tooDeep, fun hs => (Nat.not_lt_zero _ hs).elim⟩
  | succ k ih => exact (shallow_node (shallow_innerParams k) ih).many

theorem shallow_items (k : Nat) : Shallow (k + 1) (Grammar.items k) :=
  (shallow_node (shallow_innerParams k) (shallow_blockBody k)).many

/-- A template is read to some end if as many levels may open as it has characters. -/
theorem exists_reads_items {s : List Char} (h : s.length ≤ k) :
    ∃ b rest, Reads (Grammar.items k) s b rest := by
  rcases ho : (Grammar.items k s).outcome with ⟨b, rest⟩ | _ | left
  · exact ⟨b, rest, ho⟩
  · exact (not_refuses_items k s ho).elim
  · exact ((shallow_items k).outcome (Nat.lt_succ_of_le h) ho).elim

end BraceTemplate
