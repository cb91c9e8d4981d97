import BraceTemplate.Proofs.Grammar.Misses

/-!
# Fixed texts that are waited for

A miss of a fixed text says what would have brought the rule on: the text before the place of the
miss, with the fixed text behind it. `Awaits Q p s` collects what is known of these texts for all
misses of the rule `p` in `s`. What becomes of a rule at such a text is often that it comes to the
end and misses something there (`MissesEnd`, `Starves`).
-/

namespace BraceTemplate

namespace Rule

variable {α β : Type} {p q : Rule α} {f : α → Rule β} {s mid : List Char} {a : α}

/-! ## Misses at the end of a text -/

/-- The rule misses something at the end of the text. -/
def MissesEnd (p : Rule α) (s : List Char) : Prop := ∃ m ∈ (p s).misses, m.left = 0

/-- The rule refuses the text, and misses something at its end. -/
structure Starves (p : Rule α) (s : List Char) : Prop where
  refuses : Refuses p s
  missesEnd : MissesEnd p s

theorem MissesEnd.bind_left (h : MissesEnd p s) : MissesEnd (p >>= f) s := by
  obtain ⟨m, hm, hleft⟩ := h
  exact ⟨m, mem_misses_bind.2 (.inl hm), hleft⟩

theorem MissesEnd.bind (hp : Reads p s a mid) (h : MissesEnd (f a) mid) :
    MissesEnd (p >>= f) s := by
  obtain ⟨m, hm, hleft⟩ := h
  exact ⟨m, mem_misses_bind.2 (.inr ⟨a, mid, hp, hm⟩), hleft⟩

theorem MissesEnd.optional (h : MissesEnd p s) : MissesEnd (Rule.optional p) s := by
  obtain ⟨m, hm, hleft⟩ := h
  exact ⟨m, mem_misses_optional.2 hm, hleft⟩

theorem MissesEnd.many_left (h : MissesEnd p s) : MissesEnd (Rule.many p) s := by
  obtain ⟨m, hm, hleft⟩ := h
  exact ⟨m, mem_misses_many.2 (.inl hm), hleft⟩

theorem MissesEnd.many (hp : Reads p s a mid) (hlt : mid.length < s.length)
    (h : MissesEnd (Rule.many p) mid) : MissesEnd (Rule.many p) s := by
  obtain ⟨m, hm, hleft⟩ := h
  exact ⟨m, mem_misses_many.2 (.inr ⟨a, mid, hp, hlt, hm⟩), hleft⟩

theorem Starves.bind_left (h : Starves p s) : Starves (p >>= f) s :=
  ⟨Refuses.bind h.refuses, h.missesEnd.bind_left⟩

theorem Starves.bind (hp : Reads p s a mid) (h : Starves (f a) mid) : Starves (p >>= f) s :=
  ⟨hp.bind_refuses h.refuses, h.missesEnd.bind hp⟩

theorem Starves.seq {p : Rule Unit} {f : Unit → Rule β} (hp : Reads p s () mid)
    (h : Starves (f ()) mid) : Starves (p >>= f) s :=
  h.bind hp

/-- A choice starves where one of its alternatives does and the others refuse. -/
theorem Starves.firstOf (ps qs : List (Rule α)) (hps : ∀ r ∈ ps, Refuses r s) (h : Starves p s)
    (hqs : ∀ r ∈ qs, Refuses r s) : Starves (Rule.firstOf (ps ++ p :: qs)) s := by
  refine ⟨refuses_firstOf.2 fun r hr => ?_, ?_⟩
  · rcases List.mem_append.1 hr with hr | hr
    · exact hps r hr
    · rcases List.mem_cons.1 hr with rfl | hr
      · exact h.refuses
      · exact hqs r hr
  · obtain ⟨m, hm, hleft⟩ := h.missesEnd
    exact ⟨m, (mem_misses_firstOf_append _ _).2 (.inr ⟨hps, mem_misses_orElse.2 (.inl hm)⟩), hleft⟩

theorem starves_expect {label : Label} (h : Refuses p []) : Starves (expect label p) [] :=
  ⟨refuses_expect.2 h, ⟨0, label⟩, mem_misses_expect.2 (.inr ⟨h, rfl⟩), rfl⟩

/-! ## Levels that are opened in vain -/

theorem tooDeep_bind_left {left : Nat} (h : (p s).outcome = .tooDeep left) :
    ((p >>= f) s).outcome = .tooDeep left := by
  show (p.andThen f s).outcome = _
  unfold andThen
  rcases hps : p s with ⟨o, ms⟩
  rw [hps] at h
  obtain rfl : o = .tooDeep left := h
  rfl

theorem tooDeep_firstOf (ps qs : List (Rule α)) {left : Nat} (hps : ∀ r ∈ ps, Refuses r s)
    (h : (p s).outcome = .tooDeep left) :
    (Rule.firstOf (ps ++ p :: qs) s).outcome = .tooDeep left := by
  induction ps with
  | nil =>
    show (p.orElse (Rule.firstOf qs) s).outcome = _
    unfold Rule.orElse
    rcases hs : p s with ⟨o, ms⟩
    rw [hs] at h
    obtain rfl : o = .tooDeep left := h
    rfl
  | cons r ps ih =>
    have hr := hps r (by simp)
    show (r.orElse (Rule.firstOf (ps ++ p :: qs)) s).outcome = _
    unfold Rule.orElse
    rcases hs : r s with ⟨o, ms⟩
    rw [Refuses, hs] at hr
    obtain rfl : o = .mismatch := hr
    exact ih fun r hr => hps r (by simp [hr])

theorem tooDeep_optional {left : Nat} (h : (p s).outcome = .tooDeep left) :
    (Rule.optional p s).outcome = .tooDeep left :=
  tooDeep_firstOf [] [succeed none] nofun (tooDeep_bind_left h)

/-- The rule runs out of text: it starves, or it opens a level too many at the end. -/
def RunsOut (p : Rule α) (s : List Char) : Prop := Starves p s ∨ (p s).outcome = .tooDeep 0

theorem RunsOut.bind_left (h : RunsOut p s) : RunsOut (p >>= f) s :=
  h.imp Starves.bind_left tooDeep_bind_left

theorem RunsOut.firstOf (ps qs : List (Rule α)) (hps : ∀ r ∈ ps, Refuses r s) (h : RunsOut p s)
    (hqs : ∀ r ∈ qs, Refuses r s) : RunsOut (Rule.firstOf (ps ++ p :: qs)) s :=
  h.imp (fun h => .firstOf ps qs hps h hqs) (tooDeep_firstOf ps qs hps)

/-- In `s` the rule `p` comes to the rule `q` before the text `x`, and goes on as that does. -/
structure GoesOn (p : Rule α) (s : List Char) (q : Rule α) (x : List Char) : Prop where
  outcome : (p s).outcome = (q x).outcome
  misses : ∀ m ∈ (q x).misses, m ∈ (p s).misses

theorem GoesOn.refl (p : Rule α) (s : List Char) : GoesOn p s p s := ⟨rfl, fun _ => id⟩

theorem GoesOn.of_eq {q : Rule α} {x : List Char} (h : p s = q x) : GoesOn p s q x :=
  ⟨by rw [h], by rw [h]; exact fun _ => id⟩

theorem GoesOn.bind {q : Rule β} {x : List Char} (hp : Reads p s a mid)
    (h : GoesOn (f a) mid q x) : GoesOn (p >>= f) s q x where
  outcome := by
    rw [← h.outcome]
    show (p.andThen f s).outcome = _
    unfold andThen
    rcases hps : p s with ⟨o, ms⟩
    rw [Reads, hps] at hp
    obtain rfl : o = .ok a mid := hp
    rfl
  misses m hm := mem_misses_bind.2 (.inr ⟨a, mid, hp, h.misses m hm⟩)

theorem GoesOn.seq {p : Rule Unit} {f : Unit → Rule β} {q : Rule β} {x : List Char}
    (hp : Reads p s () mid) (h : GoesOn (f ()) mid q x) : GoesOn (p >>= f) s q x :=
  .bind hp h

theorem GoesOn.missesEnd {x : List Char} (h : GoesOn p s q x) (hq : MissesEnd q x) :
    MissesEnd p s := by
  obtain ⟨m, hm, hleft⟩ := hq
  exact ⟨m, h.misses m hm, hleft⟩

theorem GoesOn.runsOut {x : List Char} (h : GoesOn p s q x) (hq : RunsOut q x) : RunsOut p s :=
  hq.imp (fun hq => ⟨h.outcome.trans hq.refuses, h.missesEnd hq.missesEnd⟩) h.outcome.trans

/-! ## Fixed texts -/

/-- What the rule misses in `s`, if it is a fixed text `w`, it misses behind a beginning `b` of
`s` such that `Q b w`. -/
def Awaits (Q : List Char → List Char → Prop) (p : Rule α) (s : List Char) : Prop :=
  ∀ m ∈ (p s).misses, ∀ w, m.label.literal? = some w →
    ∃ b c, s = b ++ c ∧ m.left = c.length ∧ w ≠ [] ∧ Q b w

variable {Q Q' : List Char → List Char → Prop}

theorem Awaits.imp (h : Awaits Q p s) (hQ : ∀ b c w, s = b ++ c → Q b w → Q' b w) :
    Awaits Q' p s := by
  intro m hm w hw
  obtain ⟨b, c, hs, hleft, hne, hb⟩ := h m hm w hw
  exact ⟨b, c, hs, hleft, hne, hQ b c w hs hb⟩

theorem Awaits.mono (h : Awaits Q p s) (hQ : ∀ b w, Q b w → Q' b w) : Awaits Q' p s :=
  h.imp fun b _ w _ => hQ b w

theorem Silent.awaits (hp : p.Silent) : Awaits Q p s := fun _ hm => (hp.not_mem hm).elim

/-- What the second part of a sequence misses, it misses behind what the first part reads. -/
theorem Awaits.bind (hp : Awaits Q p s)
    (hf : ∀ a mid, Reads p s a mid →
      ∃ u, s = u ++ mid ∧ Awaits (fun b w => Q (u ++ b) w) (f a) mid) : Awaits Q (p >>= f) s := by
  intro m hm w hw
  rcases mem_misses_bind.1 hm with hp' | ⟨a, mid, ha, hf'⟩
  · exact hp m hp' w hw
  · obtain ⟨u, hs, h⟩ := hf a mid ha
    obtain ⟨b, c, rfl, hleft, hne, hb⟩ := h m hf' w hw
    exact ⟨u ++ b, c, by rw [hs, List.append_assoc], hleft, hne, hb⟩

theorem Awaits.bind_silent (hp : Awaits Q p s) (hf : ∀ a, (f a).Silent) : Awaits Q (p >>= f) s :=
  fun m hm => hp m ((mem_misses_bind_silent hf).1 hm)

theorem Awaits.orElse (hp : Awaits Q p s) (hq : Awaits Q q s) : Awaits Q (p.orElse q) s := by
  intro m hm
  rcases mem_misses_orElse.1 hm with hm | ⟨-, hm⟩
  · exact hp m hm
  · exact hq m hm

theorem awaits_firstOf {ps : List (Rule α)} (h : ∀ p ∈ ps, Awaits Q p s) :
    Awaits Q (firstOf ps) s := by
  intro m hm
  obtain ⟨p, hp, hm⟩ := exists_of_mem_misses_firstOf hm
  exact h p hp m hm

theorem Awaits.optional (hp : Awaits Q p s) : Awaits Q (Rule.optional p) s :=
  fun m hm => hp m (mem_misses_optional.1 hm)

/-- What a repetition misses in a later round, it misses behind what the rounds before read. -/
theorem Awaits.many (hp : ∀ s, Awaits Q p s)
    (hround : ∀ s a b c w, Reads p s a (b ++ c) → (b ++ c).length < s.length → Q b w →
      ∃ u, s = u ++ (b ++ c) ∧ Q (u ++ b) w) : Awaits Q (Rule.many p) s := by
  intro m hm w hw
  induction hs : s.length using Nat.strongRecOn generalizing s with
  | ind n ih =>
    subst hs
    rcases mem_misses_many.1 hm with hfirst | ⟨a, mid, ha, hlt, hlater⟩
    · exact hp s m hfirst w hw
    · obtain ⟨b, c, rfl, hleft, hne, hb⟩ := ih mid.length hlt hlater rfl
      obtain ⟨u, hs, hu⟩ := hround s a b c w ha hlt hb
      exact ⟨u ++ b, c, by rw [hs, List.append_assoc], hleft, hne, hu⟩

theorem awaits_expect {label : Label} (hp : p.Silent)
    (h : ∀ w, label.literal? = some w → w ≠ [] ∧ Q [] w) : Awaits Q (expect label p) s := by
  intro m hm w hw
  rcases mem_misses_expect.1 hm with hm | ⟨-, rfl⟩
  · exact (hp.not_mem hm).elim
  · exact ⟨[], s, rfl, rfl, h w hw⟩

/-- The rule misses names only. -/
def Wordless (p : Rule α) : Prop := ∀ s, ∀ m ∈ (p s).misses, m.label.literal? = none

theorem Wordless.awaits (hp : p.Wordless) : Awaits Q p s := by
  intro m hm w hw
  rw [hp s m hm] at hw
  cases hw

theorem Silent.wordless (hp : p.Silent) : p.Wordless := fun _ _ hm => (hp.not_mem hm).elim

theorem Wordless.bind (hp : p.Wordless) (hf : ∀ a, (f a).Wordless) : (p >>= f).Wordless := by
  intro s m hm
  rcases mem_misses_bind.1 hm with hm | ⟨a, mid, -, hm⟩
  · exact hp s m hm
  · exact hf a mid m hm

theorem Wordless.orElse (hp : p.Wordless) (hq : q.Wordless) : (p.orElse q).Wordless := by
  intro s m hm
  rcases mem_misses_orElse.1 hm with hm | ⟨-, hm⟩
  · exact hp s m hm
  · exact hq s m hm

theorem Wordless.many (hp : p.Wordless) : (Rule.many p).Wordless := by
  intro s m hm
  induction hs : s.length using Nat.strongRecOn generalizing s with
  | ind n ih =>
    subst hs
    rcases mem_misses_many.1 hm with hm | ⟨a, mid, -, hlt, hm⟩
    · exact hp s m hm
    · exact ih mid.length hlt mid hm rfl

theorem Wordless.separated {separator : Rule Unit} (hs : separator.Wordless) (hp : p.Wordless) :
    (Rule.separated separator p).Wordless := by
  refine hp.bind fun _ => (Wordless.many (hs.bind fun _ => hp)).bind fun _ => ?_
  exact Silent.wordless fun _ => rfl

theorem Silent.wordless_expect {label : Label} (hp : p.Silent) (h : label.literal? = none) :
    (expect label p).Wordless := by
  intro s m hm
  rcases mem_misses_expect.1 hm with hm | ⟨-, rfl⟩
  · exact (hp.not_mem hm).elim
  · exact h

end Rule

/-! ## Tokens -/

open Rule

variable {α : Type} {r : Rule α} {s w : List Char} {Q : List Char → List Char → Prop}

theorem starves_token (h : w ≠ []) : Starves (Grammar.token w) [] := by
  refine starves_expect (refuses_literal.2 ?_)
  obtain ⟨c, w, rfl⟩ := List.exists_cons_of_ne_nil h
  rfl

theorem starves_identifier : Starves Grammar.identifier [] := starves_expect rfl

theorem starves_partialName : Starves Grammar.partialName [] := starves_expect rfl

theorem reads_blanks_nil : Reads Grammar.blanks [] () [] :=
  reads_blanks.2 ⟨[], blanks_nil, rfl, rfl⟩

theorem reads_tilde_nil : Reads Grammar.tilde [] false [] :=
  reads_tilde.2 ⟨rfl, fun _ => rfl⟩

/-- Where the text is over, the end of a tag is missed. -/
theorem starves_tagEnd {f : Bool → Rule α} {output : Output} :
    Starves (do Grammar.blanks; let right ← Grammar.tilde; Grammar.close output; f right) [] := by
  refine .seq reads_blanks_nil (.bind reads_tilde_nil (.bind_left ?_))
  exact starves_token (by cases output <;> simp [Output.closing])

theorem wordless_identifier : Grammar.identifier.Wordless := silent_word.wordless_expect rfl

theorem wordless_names : (Rule.separated Grammar.space Grammar.identifier).Wordless :=
  silent_space.wordless.separated wordless_identifier

theorem wordless_partialName : Grammar.partialName.Wordless := silent_word.wordless_expect rfl

theorem wordless_path : Grammar.path.Wordless := by
  refine wordless_identifier.bind fun _ => Wordless.bind (Wordless.many ?_) fun _ =>
    (fun _ _ hm => (List.not_mem_nil hm).elim)
  refine (silent_literal _).wordless.bind fun _ => wordless_identifier.orElse ?_
  exact (silent_literal _).wordless.bind fun _ _ _ hm => (List.not_mem_nil hm).elim

theorem awaits_token (hne : w ≠ []) (h : Q [] w) : Awaits Q (Grammar.token w) s := by
  refine awaits_expect (silent_literal w) fun t ht => ?_
  obtain rfl : w = t := Option.some.inj ht
  exact ⟨hne, h⟩

theorem Rule.Awaits.afterLiteral
    (h : ∀ mid, s = w ++ mid → Awaits (fun b t => Q (w ++ b) t) r mid) :
    Awaits Q (do Grammar.literal w; r) s := by
  refine (silent_literal w).awaits.bind fun _ mid hmid => ?_
  exact ⟨w, reads_literal.1 hmid, h mid (reads_literal.1 hmid)⟩

theorem Rule.Awaits.afterToken (hne : w ≠ []) (hw : Q [] w)
    (h : ∀ mid, s = w ++ mid → Awaits (fun b t => Q (w ++ b) t) r mid) :
    Awaits Q (do Grammar.token w; r) s := by
  refine (awaits_token hne hw).bind fun _ mid hmid => ?_
  exact ⟨w, reads_token.1 hmid, h mid (reads_token.1 hmid)⟩

theorem Rule.Awaits.afterBlanks (h : ∀ g mid, Blanks g → headIs isBlank mid = false →
    s = g ++ mid → Awaits (fun b t => Q (g ++ b) t) r mid) : Awaits Q (do Grammar.blanks; r) s := by
  refine silent_blanks.awaits.bind fun _ mid hmid => ?_
  obtain ⟨g, hg, hblank, rfl⟩ := reads_blanks.1 hmid
  exact ⟨g, rfl, h g mid hg hblank rfl⟩

theorem Rule.Awaits.afterSpace (h : ∀ g mid, g ≠ [] → Blanks g → headIs isBlank mid = false →
    s = g ++ mid → Awaits (fun b t => Q (g ++ b) t) r mid) : Awaits Q (do Grammar.space; r) s := by
  refine silent_space.awaits.bind fun _ mid hmid => ?_
  obtain ⟨g, hne, hg, hblank, rfl⟩ := reads_space.1 hmid
  exact ⟨g, rfl, h g mid hne hg hblank rfl⟩

theorem Rule.Awaits.afterTilde {f : Bool → Rule α} (h : ∀ l mid,
    (l = false → headIs (· = '~') mid = false) → s = mark l ++ mid →
      Awaits (fun b t => Q (mark l ++ b) t) (f l) mid) : Awaits Q (Grammar.tilde >>= f) s := by
  refine silent_tilde.awaits.bind fun l mid hmid => ?_
  obtain ⟨rfl, hl⟩ := reads_tilde.1 hmid
  exact ⟨mark l, rfl, h l mid hl rfl⟩

theorem Rule.Awaits.afterName {f : String → Rule α} (h : ∀ name mid, IsName name →
    headIs isNameChar mid = false → ¬ (name = "else" ∧ closesTag mid = true) →
      s = name.toList ++ mid → Awaits (fun b t => Q (name.toList ++ b) t) (f name) mid) :
    Awaits Q (Grammar.identifier >>= f) s := by
  refine wordless_identifier.awaits.bind fun name mid hmid => ?_
  obtain ⟨hn, hnext, helse, rfl⟩ := reads_identifier.1 hmid
  exact ⟨name.toList, rfl, h name mid hn hnext helse rfl⟩

theorem starves_tagHead {f : Bool → Rule α} {output : Output} {l : Bool}
    (hs : headIs (· = '~') s = false) (h : Starves (f l) s) :
    Starves (do Grammar.literal output.opening; let left ← Grammar.tilde; f left)
      (output.opening ++ (mark l ++ s)) :=
  .seq (reads_literal.2 rfl) (.bind (reads_tilde.2 ⟨rfl, fun _ => hs⟩) h)

theorem goesOn_tagHead {f : Bool → Rule α} {output : Output} {l : Bool} {x : List Char}
    (hs : headIs (· = '~') s = false) (h : GoesOn (f l) s r x) :
    GoesOn (do Grammar.literal output.opening; let left ← Grammar.tilde; f left)
      (output.opening ++ (mark l ++ s)) r x :=
  .seq (reads_literal.2 rfl) (.bind (reads_tilde.2 ⟨rfl, fun _ => hs⟩) h)

/-- The head of a tag misses nothing itself. -/
theorem awaits_tagHead {f : Bool → Rule α} {output : Output}
    (h : ∀ l mid, (l = false → headIs (· = '~') mid = false) →
      s = output.opening ++ (mark l ++ mid) →
      Awaits (fun b t => Q (output.opening ++ (mark l ++ b)) t) (f l) mid) :
    Awaits Q (do Grammar.literal output.opening; let left ← Grammar.tilde; f left) s := by
  refine .afterLiteral fun _ hs => .afterTilde fun l mid hl hmid => ?_
  subst hmid
  exact h l mid hl hs

/-- At its end a tag awaits its closing braces, unless they are there and it is missed behind
them. -/
theorem awaits_tagEnd {f : Bool → Rule α} {output : Output}
    (hclose : ∀ g r, Blanks g → Q (g ++ mark r) output.closing)
    (h : ∀ g r mid, Blanks g → s = g ++ (mark r ++ (output.closing ++ mid)) →
      Awaits (fun b t => Q (g ++ (mark r ++ (output.closing ++ b))) t) (f r) mid) :
    Awaits Q (do Grammar.blanks; let right ← Grammar.tilde; Grammar.close output; f right) s := by
  refine .afterBlanks fun g _ hg _ hs => .afterTilde fun r _ _ hmid => ?_
  subst hmid
  refine .afterToken ?_ ?_ fun mid hmid => ?_
  · cases output <;> simp [Output.closing]
  · simpa using hclose g r hg
  · subst hmid
    exact h g r mid hg hs

end BraceTemplate
