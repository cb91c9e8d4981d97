import BraceTemplate.Grammar.Parse
import BraceTemplate.Proofs.Grammar.Lexeme

/-!
# What rules miss

The misses of a rule are those of the parts that it tried: a sequence goes on to its second part
where the first one reads, and a choice to the next alternative where one refuses. Every rule of
the grammar only goes forward (`Onward`), so whatever it misses lies in the text before it.
-/

namespace BraceTemplate

def Outcome.map {α β : Type} (f : α → β) : Outcome α → Outcome β
  | ok a rest => ok (f a) rest
  | mismatch => mismatch
  | tooDeep left => tooDeep left

namespace Outcome

variable {α β γ : Type} {f g : α → β} {o : Outcome α}

theorem map_eq_mismatch : o.map f = .mismatch ↔ o = .mismatch := by
  cases o <;> simp [map]

theorem map_map (h : β → γ) : (o.map f).map h = o.map (h ∘ f) := by
  cases o <;> rfl

theorem map_congr (h : ∀ a rest, o = .ok a rest → f a = g a) : o.map f = o.map g := by
  cases o with
  | ok a rest => exact congrArg (Outcome.ok · rest) (h a rest rfl)
  | mismatch => rfl
  | tooDeep left => rfl

end Outcome

namespace Rule

variable {α β : Type} {p q : Rule α} {f : α → Rule β} {s rest mid : List Char} {a : α} {m : Miss}

/-! ## The parts that are tried -/

theorem mem_misses_bind : m ∈ ((p >>= f) s).misses ↔
    m ∈ (p s).misses ∨ ∃ a mid, Reads p s a mid ∧ m ∈ (f a mid).misses := by
  show m ∈ (p.andThen f s).misses ↔ _ ∨ ∃ a mid, (p s).outcome = _ ∧ _
  unfold andThen
  split <;> rename_i h <;> rw [h]
  · rw [List.mem_append]
    refine or_congr_right ⟨fun hm => ⟨_, _, rfl, hm⟩, ?_⟩
    rintro ⟨_, _, ⟨⟩, hm⟩
    exact hm
  · simp
  · simp

theorem tooDeep_bind {left : Nat} (h : ((p >>= f) s).outcome = .tooDeep left) :
    (p s).outcome = .tooDeep left ∨
      ∃ a mid, Reads p s a mid ∧ (f a mid).outcome = .tooDeep left := by
  change (p.andThen f s).outcome = _ at h
  unfold andThen at h
  split at h
  · rename_i hp
    exact .inr ⟨_, _, by rw [Reads, hp], h⟩
  · cases h
  · rename_i hp
    cases h
    exact .inl (by rw [hp])

theorem mem_misses_orElse : m ∈ (p.orElse q s).misses ↔
    m ∈ (p s).misses ∨ Refuses p s ∧ m ∈ (q s).misses := by
  unfold Refuses orElse
  split
  · rename_i h
    simp [h]
  · rename_i h
    simp only [iff_self_or, and_imp]
    intro hm
    exact (h (p s).misses (by rw [← hm])).elim

theorem tooDeep_orElse {left : Nat} (h : (p.orElse q s).outcome = .tooDeep left) :
    (p s).outcome = .tooDeep left ∨ (q s).outcome = .tooDeep left := by
  unfold orElse at h
  split at h
  · exact .inr h
  · exact .inl h

/-- A choice comes to the later alternatives where all before them refuse. -/
theorem mem_misses_firstOf_append (ps qs : List (Rule α)) :
    m ∈ (firstOf (ps ++ qs) s).misses ↔
      m ∈ (firstOf ps s).misses ∨ (∀ p ∈ ps, Refuses p s) ∧ m ∈ (firstOf qs s).misses := by
  induction ps with
  | nil => simp [firstOf, fail]
  | cons p ps ih =>
    rw [List.cons_append, firstOf, mem_misses_orElse, ih, firstOf, mem_misses_orElse]
    simp only [List.mem_cons, forall_eq_or_imp, and_or_left, or_assoc, and_assoc]

theorem exists_of_mem_misses_firstOf {ps : List (Rule α)} (h : m ∈ (firstOf ps s).misses) :
    ∃ p ∈ ps, m ∈ (p s).misses := by
  induction ps with
  | nil => exact (List.not_mem_nil h).elim
  | cons p ps ih =>
    rcases mem_misses_orElse.1 h with h | ⟨-, h⟩
    · exact ⟨p, by simp, h⟩
    · obtain ⟨q, hq, h⟩ := ih h
      exact ⟨q, by simp [hq], h⟩

theorem mem_misses_optional : m ∈ (Rule.optional p s).misses ↔ m ∈ (p s).misses := by
  rw [Rule.optional, mem_misses_orElse]
  show m ∈ ((p >>= fun a => pure (some a)) s).misses ∨ _ ∧ m ∈ [] ↔ _
  rw [mem_misses_bind]
  show (_ ∨ ∃ _ _, _ ∧ m ∈ []) ∨ _ ↔ _
  simp

/-- A repetition that can go on has the misses of its first round and of the others. -/
theorem many_of_reads (h : Reads p s a mid) (hlt : mid.length < s.length) :
    many p s = ⟨(many p mid).outcome.map (a :: ·), (p s).misses ++ (many p mid).misses⟩ := by
  rw [many]
  rcases hp : p s with ⟨o, ms⟩
  rw [Reads, hp] at h
  obtain rfl : o = .ok a mid := h
  simp only [if_pos hlt]
  rcases many p mid with ⟨_ | _ | _, ms'⟩ <;> rfl

theorem many_of_refuses (h : Refuses p s) : many p s = ⟨.ok [] s, (p s).misses⟩ := by
  rw [many]
  rcases hp : p s with ⟨o, ms⟩
  rw [Refuses, hp] at h
  obtain rfl : o = .mismatch := h
  rfl

theorem mem_misses_many : m ∈ (many p s).misses ↔ m ∈ (p s).misses ∨
    ∃ a mid, Reads p s a mid ∧ mid.length < s.length ∧ m ∈ (many p mid).misses := by
  by_cases h : ∃ a mid, Reads p s a mid ∧ mid.length < s.length
  · obtain ⟨a, mid, hp, hlt⟩ := h
    rw [many_of_reads hp hlt, List.mem_append]
    refine or_congr_right ⟨fun hm => ⟨a, mid, hp, hlt, hm⟩, ?_⟩
    rintro ⟨a', mid', hp', -, hm⟩
    obtain ⟨rfl, rfl⟩ := hp.functional hp'
    exact hm
  · have hmisses : (many p s).misses = (p s).misses := by
      rw [many]
      rcases hp : p s with ⟨⟨a, mid⟩ | _ | _, ms⟩
      · have hlt : ¬ mid.length < s.length := fun hlt => h ⟨a, mid, by rw [Reads, hp], hlt⟩
        simp only [if_neg hlt]
      · rfl
      · rfl
    rw [hmisses]
    refine ⟨.inl, ?_⟩
    rintro (hm | ⟨a, mid, hp, hlt, -⟩)
    · exact hm
    · exact (h ⟨a, mid, hp, hlt⟩).elim

theorem mem_misses_expect {label : Label} : m ∈ (expect label p s).misses ↔
    m ∈ (p s).misses ∨ Refuses p s ∧ m = ⟨s.length, label⟩ := by
  unfold Refuses expect
  split
  · rename_i h
    simp [h]
  · rename_i h
    simp only [iff_self_or, and_imp]
    intro hm
    exact (h (p s).misses (by rw [← hm])).elim

theorem tooDeep_expect {label : Label} {left : Nat}
    (h : (expect label p s).outcome = .tooDeep left) : (p s).outcome = .tooDeep left := by
  unfold expect at h
  split at h
  · cases h
  · exact h

/-- The rule misses nothing by itself, wherever it is tried. -/
def Silent (p : Rule α) : Prop := ∀ s, (p s).misses = []

theorem Silent.not_mem (h : p.Silent) : m ∉ (p s).misses := by
  rw [h s]
  exact List.not_mem_nil

theorem Silent.eq_of_reads (hp : p.Silent) (h : Reads p s a mid) : p s = ⟨.ok a mid, []⟩ :=
  congr (congrArg Reply.mk h) (hp s)

theorem Silent.eq_of_refuses (hp : p.Silent) (h : Refuses p s) : p s = ⟨.mismatch, []⟩ :=
  congr (congrArg Reply.mk h) (hp s)

/-- Behind a rule that reads without a miss, a sequence is its second part. -/
theorem bind_of_ok (h : p s = ⟨.ok a mid, []⟩) : (p >>= f) s = f a mid := by
  show p.andThen f s = f a mid
  rw [andThen, h]
  rfl

theorem bind_of_mismatch {ms : List Miss} (h : p s = ⟨.mismatch, ms⟩) :
    (p >>= f) s = ⟨.mismatch, ms⟩ := by
  show p.andThen f s = _
  rw [andThen, h]

theorem Silent.expect_of_reads {label : Label} (hp : p.Silent) (h : Reads p s a mid) :
    expect label p s = ⟨.ok a mid, []⟩ := by
  rw [expect, hp.eq_of_reads h]

theorem Silent.expect_of_refuses {label : Label} (hp : p.Silent) (h : Refuses p s) :
    expect label p s = ⟨.mismatch, [⟨s.length, label⟩]⟩ := by
  rw [expect, hp.eq_of_refuses h]
  rfl

theorem optional_of_mismatch {ms : List Miss} (h : p s = ⟨.mismatch, ms⟩) :
    Rule.optional p s = ⟨.ok none s, ms⟩ := by
  have hsome : p.andThen (fun a => succeed (some a)) s = ⟨.mismatch, ms⟩ := bind_of_mismatch h
  rw [Rule.optional, orElse, hsome]
  show (⟨.ok none s, ms ++ []⟩ : Reply (Option α)) = _
  rw [List.append_nil]

/-- In a sequence with a silent rule the misses are those of the other part. -/
theorem Silent.mem_misses_bind (hp : p.Silent) (h : Reads p s a mid) :
    m ∈ ((p >>= f) s).misses ↔ m ∈ (f a mid).misses := by
  rw [bind_of_ok (hp.eq_of_reads h)]

theorem Silent.not_mem_bind (hp : p.Silent) (h : Refuses p s) : m ∉ ((p >>= f) s).misses := by
  rw [bind_of_mismatch (hp.eq_of_refuses h)]
  exact List.not_mem_nil

theorem mem_misses_bind_silent (hf : ∀ a, (f a).Silent) :
    m ∈ ((p >>= f) s).misses ↔ m ∈ (p s).misses := by
  rw [mem_misses_bind]
  refine ⟨?_, .inl⟩
  rintro (hm | ⟨a, mid, -, hm⟩)
  · exact hm
  · exact ((hf a).not_mem hm).elim

theorem Silent.bind (hp : p.Silent) (hf : ∀ a, (f a).Silent) : (p >>= f).Silent := by
  refine fun s => List.eq_nil_iff_forall_not_mem.2 fun m hm => ?_
  exact hp.not_mem ((mem_misses_bind_silent hf).1 hm)

theorem Silent.optional (hp : p.Silent) : (Rule.optional p).Silent := by
  refine fun s => List.eq_nil_iff_forall_not_mem.2 fun m hm => ?_
  exact hp.not_mem (mem_misses_optional.1 hm)

theorem silent_firstOf {ps : List (Rule α)} (h : ∀ p ∈ ps, p.Silent) : (firstOf ps).Silent := by
  refine fun s => List.eq_nil_iff_forall_not_mem.2 fun m hm => ?_
  obtain ⟨p, hp, hm⟩ := exists_of_mem_misses_firstOf hm
  exact (h p hp).not_mem hm

theorem Silent.many (hp : p.Silent) : (Rule.many p).Silent := by
  intro s
  induction hs : s.length using Nat.strongRecOn generalizing s with
  | ind n ih =>
    subst hs
    refine List.eq_nil_iff_forall_not_mem.2 fun m hm => ?_
    rcases mem_misses_many.1 hm with hm | ⟨a, mid, -, hlt, hm⟩
    · exact hp.not_mem hm
    · rw [ih mid.length hlt mid rfl] at hm
      exact List.not_mem_nil hm

theorem Silent.many1 (hp : p.Silent) : (Rule.many1 p).Silent :=
  hp.bind fun _ => hp.many.bind fun _ _ => rfl

/-! ## Going forward -/

/-- The rule only goes forward: it leaves an end of the text before it, and what it misses and
where it nests too deep lies in that text. -/
structure Onward (p : Rule α) : Prop where
  rest : ∀ {s a rest}, Reads p s a rest → rest <:+ s
  misses : ∀ {s m}, m ∈ (p s).misses → m.left ≤ s.length
  tooDeep : ∀ {s left}, (p s).outcome = .tooDeep left → left ≤ s.length

/-- A rule without misses that always reads or refuses goes forward if what it leaves does. -/
theorem Onward.of_silent (hp : p.Silent) (hdeep : ∀ s left, (p s).outcome ≠ .tooDeep left)
    (hrest : ∀ {s a rest}, Reads p s a rest → rest <:+ s) : p.Onward :=
  ⟨hrest, fun h => (hp.not_mem h).elim, fun h => (hdeep _ _ h).elim⟩

theorem onward_pure (a : α) : (pure a : Rule α).Onward := by
  refine .of_silent (fun _ => rfl) (fun _ _ h => by cases h) fun h => ?_
  obtain ⟨-, rfl⟩ := reads_pure.1 h
  exact List.suffix_refl _

theorem Onward.bind (hp : p.Onward) (hf : ∀ a, (f a).Onward) : (p >>= f).Onward := by
  refine ⟨fun h => ?_, fun h => ?_, fun h => ?_⟩
  · obtain ⟨a, mid, ha, hb⟩ := reads_bind.1 h
    exact ((hf a).rest hb).trans (hp.rest ha)
  · rcases mem_misses_bind.1 h with h | ⟨a, mid, ha, h⟩
    · exact hp.misses h
    · exact Nat.le_trans ((hf a).misses h) (hp.rest ha).length_le
  · rcases tooDeep_bind h with h | ⟨a, mid, ha, h⟩
    · exact hp.tooDeep h
    · exact Nat.le_trans ((hf a).tooDeep h) (hp.rest ha).length_le

theorem Onward.orElse (hp : p.Onward) (hq : q.Onward) : (p.orElse q).Onward := by
  refine ⟨fun h => ?_, fun h => ?_, fun h => ?_⟩
  · rcases reads_orElse.1 h with h | ⟨-, h⟩
    · exact hp.rest h
    · exact hq.rest h
  · rcases mem_misses_orElse.1 h with h | ⟨-, h⟩
    · exact hp.misses h
    · exact hq.misses h
  · rcases tooDeep_orElse h with h | h
    · exact hp.tooDeep h
    · exact hq.tooDeep h

theorem onward_firstOf {ps : List (Rule α)} (h : ∀ p ∈ ps, p.Onward) : (firstOf ps).Onward := by
  induction ps with
  | nil =>
    refine .of_silent (fun _ => rfl) (fun _ _ h => by cases h) fun h => ?_
    exact (not_reads_fail h).elim
  | cons p ps ih => exact (h p (by simp)).orElse (ih fun q hq => h q (by simp [hq]))

theorem Onward.optional (hp : p.Onward) : (Rule.optional p).Onward :=
  (hp.bind fun _ => onward_pure _).orElse (onward_pure _)

theorem Onward.expect {label : Label} (hp : p.Onward) : (Rule.expect label p).Onward := by
  refine ⟨fun h => hp.rest (reads_expect.1 h), fun h => ?_, fun h => hp.tooDeep (tooDeep_expect h)⟩
  rcases mem_misses_expect.1 h with h | ⟨-, rfl⟩
  · exact hp.misses h
  · exact Nat.le_refl _

theorem Onward.many (hp : p.Onward) : (Rule.many p).Onward := by
  refine ⟨fun {s as rest} h => ?_, fun {s m} h => ?_, fun {s left} h => ?_⟩
  · induction as generalizing s with
    | nil =>
      obtain ⟨-, rfl⟩ := reads_many_nil.1 h
      exact List.suffix_refl _
    | cons a as ih =>
      obtain ⟨mid, ha, -, h⟩ := reads_many_cons.1 h
      exact (ih h).trans (hp.rest ha)
  · induction hs : s.length using Nat.strongRecOn generalizing s with
    | ind n ih =>
      subst hs
      rcases mem_misses_many.1 h with h | ⟨a, mid, -, hlt, h⟩
      · exact hp.misses h
      · have := ih mid.length hlt h rfl
        omega
  · induction hs : s.length using Nat.strongRecOn generalizing s with
    | ind n ih =>
      subst hs
      rw [Rule.many] at h
      split at h
      · split at h
        · rename_i hlt
          split at h
          · cases h
          · cases h
          · rename_i hdeep
            cases h
            have := ih _ hlt (by rw [hdeep]) rfl
            omega
        · cases h
      · cases h
      · rename_i hdeep
        cases h
        exact hp.tooDeep (by rw [hdeep])

theorem Onward.many1 (hp : p.Onward) : (Rule.many1 p).Onward :=
  hp.bind fun _ => hp.many.bind fun _ => onward_pure _

theorem Onward.separated {separator : Rule Unit} (hs : separator.Onward) (hp : p.Onward) :
    (Rule.separated separator p).Onward :=
  hp.bind fun _ => (Onward.many (hs.bind fun _ => hp)).bind fun _ => onward_pure _

theorem onward_refuse (ahead : List Char → Bool) : (refuse ahead).Onward := by
  refine .of_silent (fun _ => rfl) (fun s _ h => ?_) fun h => ?_
  · change (if ahead s then _ else _) = _ at h
    split at h <;> cases h
  · obtain ⟨-, rfl⟩ := reads_refuse.1 h
    exact List.suffix_refl _

def Consumes (p : Rule α) : Prop := ∀ ⦃s a rest⦄, Reads p s a rest → rest.length < s.length

theorem Consumes.bind (hp : p.Consumes) (hf : ∀ a, (f a).Onward) : (p >>= f).Consumes := by
  intro s b rest h
  obtain ⟨a, mid, ha, hb⟩ := reads_bind.1 h
  exact Nat.lt_of_le_of_lt ((hf a).rest hb).length_le (hp ha)

theorem consumes_firstOf {ps : List (Rule α)} (h : ∀ p ∈ ps, p.Consumes) :
    (firstOf ps).Consumes := by
  intro s a rest hr
  obtain ⟨p, hp, hr⟩ := exists_of_reads_firstOf hr
  exact h p hp hr

/-- Repeating a rule that leaves less text each time comes to an end, where the rule refuses. -/
theorem Consumes.not_refuses_many (hp : p.Consumes) : ¬ Refuses (many p) s := by
  induction hs : s.length using Nat.strongRecOn generalizing s with
  | ind n ih =>
    subst hs
    intro h
    rcases ho : (p s).outcome with ⟨a, mid⟩ | _ | left
    · have hlt := hp ho
      have hmid := ih mid.length hlt rfl
      rw [Refuses, many_of_reads ho hlt] at h
      exact hmid (Outcome.map_eq_mismatch.1 h)
    · rw [Refuses, many_of_refuses ho] at h
      cases h
    · rw [Refuses, many] at h
      rcases hps : p s with ⟨o, ms⟩
      rw [hps] at ho h
      obtain rfl : o = .tooDeep left := ho
      cases h

/-- A repetition stops where the rule refuses, and it has missed what the rule misses there. -/
theorem refuses_of_reads_many {as : List α} (h : Reads (many p) s as rest) :
    Refuses p rest ∧ ∀ m ∈ (p rest).misses, m ∈ (many p s).misses := by
  induction as generalizing s with
  | nil =>
    obtain ⟨hr, rfl⟩ := reads_many_nil.1 h
    exact ⟨hr, fun m hm => mem_misses_many.2 (.inl hm)⟩
  | cons a as ih =>
    obtain ⟨mid, ha, hlt, h⟩ := reads_many_cons.1 h
    obtain ⟨hr, hm⟩ := ih h
    exact ⟨hr, fun m h => mem_misses_many.2 (.inr ⟨a, mid, ha, hlt, hm m h⟩)⟩

end Rule

/-! ## Tokens -/

open Rule

variable {p : Char → Bool} {w : List Char}

theorem silent_literal (w : List Char) : (Grammar.literal w).Silent := by
  intro s
  unfold Grammar.literal
  split <;> rfl

theorem silent_run (p : Char → Bool) : (Grammar.run p).Silent := fun _ => rfl

theorem silent_run1 (p : Char → Bool) : (Grammar.run1 p).Silent := by
  intro s
  unfold Grammar.run1
  split <;> rfl

theorem silent_blanks : Grammar.blanks.Silent := (silent_run _).bind fun _ _ => rfl

theorem silent_space : Grammar.space.Silent := (silent_run1 _).bind fun _ _ => rfl

theorem silent_tilde : Grammar.tilde.Silent := (silent_literal _).optional.bind fun _ _ => rfl

theorem silent_word : (do
    Rule.refuse closesElse
    return String.ofList (← Grammar.run1 p) : Rule String).Silent :=
  Silent.bind (fun _ => rfl) fun _ => (silent_run1 p).bind fun _ _ => rfl

/-- A token that is there is read without a miss. -/
theorem token_append (w s : List Char) : Grammar.token w (w ++ s) = ⟨.ok () s, []⟩ :=
  (silent_literal w).expect_of_reads (reads_literal.2 rfl)

/-- Where a token is not there, it is all that is missed. -/
theorem token_of_stripPrefix {s : List Char} (h : stripPrefix w s = none) :
    Grammar.token w s = ⟨.mismatch, [⟨s.length, .token w⟩]⟩ :=
  (silent_literal w).expect_of_refuses (refuses_literal.2 h)

theorem onward_literal (w : List Char) : (Grammar.literal w).Onward := by
  refine .of_silent (silent_literal w) (fun s left h => ?_) fun h => ?_
  · unfold Grammar.literal at h
    split at h <;> cases h
  · rw [reads_literal.1 h]
    exact List.suffix_append _ _

theorem consumes_literal (hw : w ≠ []) : (Grammar.literal w).Consumes := by
  intro s a rest h
  have := List.length_pos_iff.2 hw
  rw [reads_literal.1 h, List.length_append]
  omega

theorem onward_token (w : List Char) : (Grammar.token w).Onward := (onward_literal w).expect

theorem onward_run (p : Char → Bool) : (Grammar.run p).Onward := by
  refine .of_silent (silent_run p) (fun s left h => by cases h) fun h => ?_
  rw [(reads_run.1 h).2.2]
  exact List.suffix_append _ _

theorem onward_run1 (p : Char → Bool) : (Grammar.run1 p).Onward := by
  refine .of_silent (silent_run1 p) (fun s left h => ?_) fun h => ?_
  · unfold Grammar.run1 at h
    split at h <;> cases h
  · rw [(reads_run1.1 h).2.2.2]
    exact List.suffix_append _ _

theorem consumes_run1 (p : Char → Bool) : (Grammar.run1 p).Consumes := by
  intro s cs rest h
  obtain ⟨hne, -, -, rfl⟩ := reads_run1.1 h
  have := List.length_pos_iff.2 hne
  rw [List.length_append]
  omega

theorem onward_blanks : Grammar.blanks.Onward := (onward_run _).bind fun _ => onward_pure _

theorem onward_space : Grammar.space.Onward := (onward_run1 _).bind fun _ => onward_pure _

theorem onward_tilde : Grammar.tilde.Onward :=
  (onward_literal _).optional.bind fun _ => onward_pure _

theorem onward_word {label : Label} : (Rule.expect label do
    Rule.refuse closesElse
    return String.ofList (← Grammar.run1 p)).Onward :=
  Onward.expect ((onward_refuse _).bind fun _ => (onward_run1 _).bind fun _ => onward_pure _)

theorem onward_identifier : Grammar.identifier.Onward := onward_word

theorem onward_partialName : Grammar.partialName.Onward := onward_word

theorem onward_path : Grammar.path.Onward := by
  refine onward_identifier.bind fun _ => Onward.bind (Onward.many ?_) fun _ => onward_pure _
  refine (onward_literal _).bind fun _ => onward_identifier.orElse ?_
  exact (onward_literal _).bind fun _ => onward_pure _

theorem onward_quotedBy (quote : Char) : (Grammar.quotedBy quote).Onward :=
  (onward_literal _).bind fun _ => (onward_run _).bind fun _ =>
    (onward_literal _).expect.bind fun _ => onward_pure _

theorem onward_quoted : Grammar.quoted.Onward := (onward_quotedBy _).orElse (onward_quotedBy _)

/-! ## Tags -/

section
variable {rInner : Rule (List Param)} {rBody : Rule Block}

theorem onward_parameter (hi : rInner.Onward) : (Grammar.parameter rInner).Onward := by
  refine (onward_refuse _).bind fun _ => onward_firstOf ?_
  simp only [List.mem_cons, List.not_mem_nil, or_false, forall_eq_or_imp, forall_eq]
  refine ⟨onward_path.bind fun _ => onward_pure _, onward_quoted.bind fun _ => onward_pure _, ?_⟩
  refine (onward_literal _).bind fun _ => onward_blanks.bind fun _ => ?_
  refine onward_identifier.bind fun _ => hi.bind fun _ => ?_
  exact onward_blanks.bind fun _ => (onward_token _).bind fun _ => onward_pure _

theorem onward_parameters (hi : rInner.Onward) : (Grammar.parameters rInner).Onward :=
  Onward.separated onward_space (onward_parameter hi)

theorem onward_parametersAfter {before : Rule Unit} (hb : before.Onward) (hi : rInner.Onward) :
    (Grammar.parametersAfter before rInner).Onward :=
  (Onward.optional (hb.bind fun _ => onward_parameters hi)).bind fun _ => onward_pure _

theorem onward_argument (hi : rInner.Onward) : (Grammar.argument rInner).Onward := by
  refine onward_identifier.bind fun _ => onward_blanks.bind fun _ => ?_
  refine (onward_token _).bind fun _ => onward_blanks.bind fun _ => ?_
  exact (onward_parameter hi).bind fun _ => onward_pure _

/-- The end of a tag goes forward if what is behind it does. -/
theorem onward_tagEnd {α : Type} {output : Output} {f : Bool → Rule α} (hf : ∀ r, (f r).Onward) :
    (do Grammar.blanks; let right ← Grammar.tilde; Grammar.close output; f right).Onward :=
  onward_blanks.bind fun _ => onward_tilde.bind fun r => (onward_token _).bind fun _ => hf r

/-- A rule that starts with the opening braces of a tag consumes them. -/
theorem consumes_tagHead {α : Type} (output : Output) {f : Bool → Rule α}
    (hf : ∀ l, (f l).Onward) :
    (do Grammar.literal output.opening; let left ← Grammar.tilde; f left).Consumes := by
  refine Consumes.bind (fun s a rest h => ?_) fun _ => onward_tilde.bind hf
  have hopening : 0 < output.opening.length := by cases output <;> decide
  rw [reads_literal.1 h, List.length_append]
  omega

theorem onward_tagHead {α : Type} (output : Output) {f : Bool → Rule α}
    (hf : ∀ l, (f l).Onward) :
    (do Grammar.literal output.opening; let left ← Grammar.tilde; f left).Onward :=
  (onward_literal _).bind fun _ => onward_tilde.bind hf

/-- The rule leaves an end of the text before it, and a shorter text than it found. -/
structure Advances {α : Type} (p : Rule α) : Prop where
  onward : p.Onward
  consumes : p.Consumes

theorem advances_tagHead {α : Type} (output : Output) {f : Bool → Rule α}
    (hf : ∀ l, (f l).Onward) :
    Advances (do Grammar.literal output.opening; let left ← Grammar.tilde; f left) :=
  ⟨onward_tagHead output hf, consumes_tagHead output hf⟩

theorem silent_textPiece : Grammar.textPiece.Silent := by
  refine silent_firstOf ?_
  simp only [List.mem_cons, List.not_mem_nil, or_false, forall_eq_or_imp, forall_eq]
  exact ⟨silent_run1 _, (silent_literal _).bind fun _ => Silent.bind (fun _ => rfl) fun _ _ => rfl,
    (silent_literal _).bind fun _ _ => rfl⟩

theorem silent_content : Grammar.content.Silent := silent_textPiece.many1.bind fun _ _ => rfl

/-- A piece of text is not empty. -/
theorem advances_textPiece : Advances Grammar.textPiece := by
  have hall : ∀ p ∈ [Grammar.run1 fun c => !Grammar.isBrace c,
      (do Grammar.literal ['{']; Rule.refuse fun s => (stripPrefix ['{'] s).isSome; return ['{']),
      (do Grammar.literal ['}']; return ['}'])], Advances p := by
    simp only [List.mem_cons, List.not_mem_nil, or_false, forall_eq_or_imp, forall_eq]
    have hbrace : (do Rule.refuse fun s => (stripPrefix ['{'] s).isSome; return ['{']).Onward :=
      (onward_refuse _).bind fun _ => onward_pure _
    exact ⟨⟨onward_run1 _, consumes_run1 _⟩,
      ⟨(onward_literal _).bind fun _ => hbrace,
        (consumes_literal (List.cons_ne_nil _ _)).bind fun _ => hbrace⟩,
      ⟨(onward_literal _).bind fun _ => onward_pure _,
        (consumes_literal (List.cons_ne_nil _ _)).bind fun _ => onward_pure _⟩⟩
  exact ⟨onward_firstOf fun p hp => (hall p hp).onward,
    consumes_firstOf fun p hp => (hall p hp).consumes⟩

theorem advances_content : Advances Grammar.content where
  onward := advances_textPiece.onward.many1.bind fun _ => onward_pure _
  consumes := Consumes.bind (advances_textPiece.consumes.bind fun _ =>
    advances_textPiece.onward.many.bind fun _ => onward_pure _) fun _ => onward_pure _

theorem advances_reference (output : Output) : Advances (Grammar.reference output) :=
  advances_tagHead output fun _ => onward_blanks.bind fun _ => onward_path.bind fun _ =>
    onward_tagEnd fun _ => onward_pure _

theorem advances_helper (hi : rInner.Onward) (output : Output) :
    Advances (Grammar.helper rInner output) :=
  advances_tagHead output fun _ => onward_blanks.bind fun _ => onward_identifier.bind fun _ =>
    (onward_parametersAfter onward_blanks hi).bind fun _ => onward_tagEnd fun _ => onward_pure _

theorem advances_partialTag (hi : rInner.Onward) : Advances (Grammar.partialTag rInner) := by
  refine advances_tagHead .escaped fun _ => (onward_token _).bind fun _ => ?_
  refine onward_blanks.bind fun _ => onward_partialName.bind fun _ => onward_blanks.bind fun _ => ?_
  refine (Onward.separated onward_space (onward_argument hi)).optional.bind fun _ => ?_
  refine onward_tagEnd fun _ => ?_
  split
  · exact onward_pure _
  · exact onward_pure _

theorem advances_closingTag (name : String) : Advances (Grammar.closingTag name) :=
  advances_tagHead .escaped fun _ => (onward_token _).bind fun _ =>
    (onward_literal _).expect.bind fun _ => onward_tilde.bind fun _ =>
      (onward_token _).bind fun _ => onward_pure _

theorem onward_markedElse (hb : rBody.Onward) : (Grammar.markedElse rBody).Onward :=
  onward_tagHead .escaped fun _ => onward_blanks.bind fun _ =>
    (onward_token _).bind fun _ => onward_tagEnd fun _ => hb.bind fun _ => onward_pure _

theorem onward_plainElse (hb : rBody.Onward) : (Grammar.plainElse rBody).Onward :=
  (onward_literal _).bind fun _ => onward_blanks.bind fun _ => (onward_token _).bind fun _ =>
    onward_blanks.bind fun _ => (onward_token _).bind fun _ => hb

theorem advances_blockTag (hi : rInner.Onward) (hb : rBody.Onward) :
    Advances (Grammar.blockTag rInner rBody) := by
  refine advances_tagHead .escaped fun _ => (onward_token _).bind fun _ => ?_
  refine onward_identifier.bind fun name => ?_
  refine (onward_parametersAfter onward_space hi).bind fun _ => ?_
  refine onward_tagEnd fun _ => hb.bind fun _ => (onward_markedElse hb).optional.bind fun _ => ?_
  exact (advances_closingTag name).onward.bind fun _ => onward_pure _

theorem advances_binderTag (hi : rInner.Onward) (hb : rBody.Onward) :
    Advances (Grammar.binderTag rInner rBody) := by
  refine advances_tagHead .escaped fun _ => (onward_token _).bind fun _ => ?_
  refine onward_identifier.bind fun name => onward_space.bind fun _ => ?_
  refine (onward_parameters hi).bind fun _ => onward_space.bind fun _ => ?_
  refine (onward_token _).bind fun _ => onward_blanks.bind fun _ => ?_
  refine (onward_token _).bind fun _ => onward_blanks.bind fun _ => ?_
  refine (Onward.separated onward_space onward_identifier).bind fun _ => ?_
  refine onward_blanks.bind fun _ => (onward_token _).bind fun _ => ?_
  refine onward_tagEnd fun _ => hb.bind fun _ => (onward_plainElse hb).optional.bind fun _ => ?_
  exact (advances_closingTag name).onward.bind fun _ => onward_pure _

/-- Each of the rules for a node consumes some of the text. -/
theorem advances_node (hi : rInner.Onward) (hb : rBody.Onward) :
    Advances (Grammar.node rInner rBody) := by
  have hall : ∀ p ∈ [Grammar.content, Grammar.reference .escaped, Grammar.reference .raw,
      Grammar.helper rInner .escaped, Grammar.helper rInner .raw, Grammar.partialTag rInner,
      Grammar.blockTag rInner rBody, Grammar.binderTag rInner rBody], Advances p := by
    simp only [List.mem_cons, List.not_mem_nil, or_false, forall_eq_or_imp, forall_eq]
    exact ⟨advances_content, advances_reference _, advances_reference _, advances_helper hi _,
      advances_helper hi _, advances_partialTag hi, advances_blockTag hi hb,
      advances_binderTag hi hb⟩
  exact ⟨onward_firstOf fun p hp => (hall p hp).onward,
    consumes_firstOf fun p hp => (hall p hp).consumes⟩

end

theorem onward_tooDeep {α : Type} : (Rule.tooDeep : Rule α).Onward where
  rest h := by cases h
  misses h := by cases h
  tooDeep h := by
    cases h
    exact Nat.le_refl _

theorem onward_innerParams (budget : Nat) : (Grammar.innerParams budget).Onward := by
  induction budget with
  | zero => exact onward_tooDeep
  | succ budget ih => exact onward_parametersAfter onward_blanks ih

theorem onward_blockBody (budget : Nat) : (Grammar.blockBody budget).Onward := by
  induction budget with
  | zero => exact onward_tooDeep
  | succ budget ih => exact Onward.many (advances_node (onward_innerParams budget) ih).onward

/-- The nodes of a template go forward, and there is always an end to them. -/
theorem onward_items (budget : Nat) : (Grammar.items budget).Onward :=
  Onward.many (advances_node (onward_innerParams budget) (onward_blockBody budget)).onward

theorem not_refuses_items (budget : Nat) (s : List Char) : ¬ Refuses (Grammar.items budget) s :=
  (advances_node (onward_innerParams budget) (onward_blockBody budget)).consumes.not_refuses_many

end BraceTemplate
