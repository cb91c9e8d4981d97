import BraceTemplate.Grammar.Rule

/-!
# What rules read and refuse

`Reads p s a rest` says that the rule `p` reads `a` from the text `s` and leaves `rest`, and
`Refuses p s` that it does not match there. Each combinator has one equivalence for either, so
that a claim about a rule turns into claims about its parts.
-/

namespace BraceTemplate.Rule

variable {α β : Type} {p q : Rule α} {f : α → Rule β} {s rest m : List Char} {a : α} {b : β}

/-- The rule reads `a` from `s` and leaves `rest`. -/
def Reads (p : Rule α) (s : List Char) (a : α) (rest : List Char) : Prop :=
  (p s).outcome = .ok a rest

def Refuses (p : Rule α) (s : List Char) : Prop :=
  (p s).outcome = .mismatch

theorem Reads.functional {a' : α} {rest' : List Char} (h : Reads p s a rest)
    (h' : Reads p s a' rest') : a = a' ∧ rest = rest' := by
  simpa using h.symm.trans h'

theorem Reads.not_refuses (h : Reads p s a rest) : ¬ Refuses p s := by
  intro h'
  have := h.symm.trans h'
  cases this

/-! ## Sequences -/

theorem reads_pure {a' : α} : Reads (pure a' : Rule α) s a rest ↔ a = a' ∧ rest = s := by
  constructor
  · intro h
    cases h
    exact ⟨rfl, rfl⟩
  · rintro ⟨rfl, rfl⟩
    rfl

theorem not_refuses_pure : ¬ Refuses (pure a : Rule α) s := by
  intro h
  cases h

theorem reads_bind :
    Reads (p >>= f) s b rest ↔ ∃ a m, Reads p s a m ∧ Reads (f a) m b rest :=
  andThen_eq_ok_iff

theorem refuses_bind :
    Refuses (p >>= f) s ↔ Refuses p s ∨ ∃ a m, Reads p s a m ∧ Refuses (f a) m := by
  show (p.andThen f s).outcome = _ ↔ (p s).outcome = _ ∨ ∃ a m, (p s).outcome = _ ∧ _
  unfold andThen
  split <;> rename_i h <;> rw [h]
  · simp only [reduceCtorEq, false_or, Outcome.ok.injEq]
    constructor
    · exact fun hf => ⟨_, _, ⟨rfl, rfl⟩, hf⟩
    · rintro ⟨_, _, ⟨rfl, rfl⟩, hf⟩
      exact hf
  · simp
  · simp

theorem Reads.bind (hp : Reads p s a m) (hf : Reads (f a) m b rest) :
    Reads (p >>= f) s b rest :=
  reads_bind.2 ⟨a, m, hp, hf⟩

theorem Reads.bind_refuses (hp : Reads p s a m) (hf : Refuses (f a) m) :
    Refuses (p >>= f) s :=
  refuses_bind.2 (.inr ⟨a, m, hp, hf⟩)

theorem Reads.seq {p : Rule Unit} {f : Unit → Rule β} (hp : Reads p s () m)
    (hf : Reads (f ()) m b rest) : Reads (p >>= f) s b rest :=
  hp.bind hf

theorem Reads.seq_refuses {p : Rule Unit} {f : Unit → Rule β} (hp : Reads p s () m)
    (hf : Refuses (f ()) m) : Refuses (p >>= f) s :=
  hp.bind_refuses hf

theorem Refuses.bind (hp : Refuses p s) : Refuses (p >>= f) s :=
  refuses_bind.2 (.inl hp)

/-! ## Alternatives -/

theorem reads_orElse :
    Reads (p.orElse q) s a rest ↔ Reads p s a rest ∨ Refuses p s ∧ Reads q s a rest := by
  unfold Reads Refuses orElse
  split
  · rename_i h
    simp [h]
  · rename_i h
    simp only [iff_self_or, and_imp]
    intro hm
    exact (h (p s).misses (by rw [← hm])).elim

theorem refuses_orElse : Refuses (p.orElse q) s ↔ Refuses p s ∧ Refuses q s := by
  unfold Refuses orElse
  split
  · rename_i h
    simp [h]
  · rename_i h
    simp only [iff_self_and]
    intro hm
    exact (h (p s).misses (by rw [← hm])).elim

theorem not_reads_fail : ¬ Reads (fail : Rule α) s a rest := by
  intro h
  cases h

theorem reads_firstOf_cons {ps : List (Rule α)} :
    Reads (firstOf (p :: ps)) s a rest ↔
      Reads p s a rest ∨ Refuses p s ∧ Reads (firstOf ps) s a rest :=
  reads_orElse

theorem refuses_firstOf {ps : List (Rule α)} : Refuses (firstOf ps) s ↔ ∀ p ∈ ps, Refuses p s := by
  induction ps with
  | nil => simp [firstOf, fail, Refuses]
  | cons p ps ih => simp [firstOf, refuses_orElse, ih]

/-- What a choice reads, one of the alternatives reads. -/
theorem exists_of_reads_firstOf {ps : List (Rule α)} (h : Reads (firstOf ps) s a rest) :
    ∃ p ∈ ps, Reads p s a rest := by
  induction ps with
  | nil => exact (not_reads_fail h).elim
  | cons p ps ih =>
    rcases reads_firstOf_cons.1 h with h | ⟨-, h⟩
    · exact ⟨p, by simp, h⟩
    · obtain ⟨q, hq, h⟩ := ih h
      exact ⟨q, by simp [hq], h⟩

/-- An alternative is read if all before it refuse. -/
theorem reads_firstOf_append (ps qs : List (Rule α)) (hps : ∀ q ∈ ps, Refuses q s)
    (h : Reads p s a rest) : Reads (firstOf (ps ++ p :: qs)) s a rest := by
  induction ps with
  | nil => exact reads_firstOf_cons.2 (.inl h)
  | cons q ps ih =>
    exact reads_firstOf_cons.2
      (.inr ⟨hps q (by simp), ih fun r hr => hps r (by simp [hr])⟩)

theorem reads_optional {o : Option α} :
    Reads (optional p) s o rest ↔
      (∃ a, o = some a ∧ Reads p s a rest) ∨ o = none ∧ Refuses p s ∧ rest = s := by
  have h1 : Reads (p.andThen fun a => succeed (some a)) s o rest ↔
      ∃ a, o = some a ∧ Reads p s a rest := by
    refine reads_bind.trans ⟨?_, ?_⟩
    · rintro ⟨a, m, hp, h⟩
      obtain ⟨rfl, rfl⟩ := reads_pure.1 h
      exact ⟨a, rfl, hp⟩
    · rintro ⟨a, rfl, hp⟩
      exact ⟨a, rest, hp, reads_pure.2 ⟨rfl, rfl⟩⟩
  have h2 : Refuses (p.andThen fun a => succeed (some a)) s ↔ Refuses p s := by
    refine refuses_bind.trans ⟨?_, .inl⟩
    rintro (h | ⟨a, m, -, h⟩)
    · exact h
    · exact (not_refuses_pure h).elim
  have h3 : Reads (succeed (none : Option α)) s o rest ↔ o = none ∧ rest = s := reads_pure
  rw [optional, reads_orElse, h1, h2, h3]
  constructor
  · rintro (h | ⟨hr, rfl, rfl⟩)
    · exact .inl h
    · exact .inr ⟨rfl, hr, rfl⟩
  · rintro (h | ⟨rfl, hr, rfl⟩)
    · exact .inl h
    · exact .inr ⟨hr, rfl, rfl⟩

theorem Reads.optional (h : Reads p s a rest) : Reads (optional p) s (some a) rest :=
  reads_optional.2 (.inl ⟨a, rfl, h⟩)

theorem Refuses.optional (h : Refuses p s) : Reads (Rule.optional p) s none s :=
  reads_optional.2 (.inr ⟨rfl, h, rfl⟩)

/-! ## Repetition -/

/-- A repetition stops where the rule refuses. -/
theorem Refuses.many (h : Refuses p s) : Reads (many p) s [] s := by
  unfold Reads Rule.many
  split
  · rename_i h'
    rw [Refuses, h'] at h
    cases h
  · rfl
  · rename_i h'
    rw [Refuses, h'] at h
    cases h

theorem reads_many_cons {as : List α} :
    Reads (many p) s (a :: as) rest ↔
      ∃ m, Reads p s a m ∧ m.length < s.length ∧ Reads (many p) m as rest := by
  unfold Reads
  rw [Rule.many]
  split
  · rename_i a' m ms h
    rw [h]
    split
    · rename_i hlt
      split
      · rename_i as' rest' ms' h'
        simp only [Outcome.ok.injEq, List.cons.injEq]
        constructor
        · rintro ⟨⟨rfl, rfl⟩, rfl⟩
          exact ⟨m, ⟨rfl, rfl⟩, hlt, by rw [h']⟩
        · rintro ⟨_, ⟨rfl, rfl⟩, -, hm⟩
          rw [h'] at hm
          cases hm
          exact ⟨⟨rfl, rfl⟩, rfl⟩
      all_goals
        rename_i h'
        simp only [reduceCtorEq, Outcome.ok.injEq, false_iff, not_exists]
        rintro _ ⟨⟨rfl, rfl⟩, -, hm⟩
        rw [h'] at hm
        cases hm
    · rename_i hlt
      simp only [reduceCtorEq, Outcome.ok.injEq, false_iff, not_exists]
      rintro _ ⟨⟨rfl, rfl⟩, h, -⟩
      exact hlt h
  · rename_i h
    simp [h]
  · rename_i h
    simp [h]

theorem reads_many_nil : Reads (many p) s [] rest ↔ Refuses p s ∧ rest = s := by
  constructor
  · intro h
    have hr : Refuses p s := by
      unfold Reads at h
      rw [Rule.many] at h
      split at h
      · split at h
        · split at h <;> cases h
        · cases h
      · rename_i hm
        rw [Refuses, hm]
      · cases h
    exact ⟨hr, (h.functional hr.many).2⟩
  · rintro ⟨h, rfl⟩
    exact h.many

/-- A repetition of a rule that consumes what it reads goes on after each match. -/
theorem Reads.many {as : List α} (h : Reads p s a m) (hlt : m.length < s.length)
    (hs : Reads (many p) m as rest) : Reads (Rule.many p) s (a :: as) rest :=
  reads_many_cons.2 ⟨m, h, hlt, hs⟩

theorem reads_separated {separator : Rule Unit} {as : List α} :
    Reads (separated separator p) s as rest ↔
      ∃ a others m, as = a :: others ∧ Reads p s a m ∧
        Reads (many (do separator; p)) m others rest := by
  unfold separated
  simp only [reads_bind, reads_pure]
  constructor
  · rintro ⟨a, m, hp, others, m', hm, rfl, rfl⟩
    exact ⟨a, others, m, rfl, hp, hm⟩
  · rintro ⟨a, others, m, rfl, hp, hm⟩
    exact ⟨a, m, hp, others, rest, hm, rfl, rfl⟩

/-! ## Labels and lookahead -/

theorem reads_expect {label : Label} : Reads (expect label p) s a rest ↔ Reads p s a rest := by
  unfold Reads expect
  split
  · rename_i h
    simp [h]
  · rfl

theorem refuses_expect {label : Label} : Refuses (expect label p) s ↔ Refuses p s := by
  unfold Refuses expect
  split
  · rename_i h
    simp [h]
  · rfl

theorem reads_refuse {ahead : List Char → Bool} {u : Unit} :
    Reads (refuse ahead) s u rest ↔ ahead s = false ∧ rest = s := by
  unfold Reads refuse
  cases ahead s <;> simp [eq_comm]

theorem refuses_refuse {ahead : List Char → Bool} : Refuses (refuse ahead) s ↔ ahead s = true := by
  unfold Refuses refuse
  cases ahead s <;> simp

end BraceTemplate.Rule
