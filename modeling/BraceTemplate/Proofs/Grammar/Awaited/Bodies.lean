import BraceTemplate.Proofs.Grammar.Awaited.Tags
import BraceTemplate.Proofs.Grammar.Descent
import BraceTemplate.Proofs.Grammar.TagMisses

/-!
# Fixed texts that the rest of a block waits for

What follows the head of a block is its body, perhaps an alternative, and the closing tag. A token
that is missed in one of them leads as far as it leads there: where a body stops in the middle of a
tag (`Stuck`), neither an `else` tag nor a closing tag is there, and the whole block runs out of
text. Where the part is complete, what is missing behind it is the closing tag of the block.
-/

namespace BraceTemplate

open Rule

variable {α β : Type} {s x u v w g : List Char} {rBody : Rule Block} {rElse : Rule β}
variable {body : Block → List Char → Prop} {E : List Char → Prop} {l r : Bool} {name : String}

/-! ## Stopping in the middle of a tag -/

/-- The rule misses something at the end of the text and stops where no block ends, or it opens a
level too many there. -/
def Stuck (p : Rule α) (x : List Char) : Prop :=
  (∃ a rest, Reads p x a rest ∧ MissesEnd p x ∧ ¬ EndsBlock rest) ∨ (p x).outcome = .tooDeep 0

theorem Stuck.of_goesOn {p q : Rule α} (h : GoesOn p s q x) (hq : Stuck q x) : Stuck p s := by
  rcases hq with ⟨a, rest, hread, hmisses, hend⟩ | hdeep
  · exact .inl ⟨a, rest, h.outcome.trans hread, h.missesEnd hmisses, hend⟩
  · exact .inr (h.outcome.trans hdeep)

theorem Stuck.map {p : Rule α} {k : α → β} (h : Stuck p x) : Stuck (do return k (← p)) x := by
  rcases h with ⟨a, rest, hread, hmisses, hend⟩ | hdeep
  · exact .inl ⟨k a, rest, hread.bind (reads_pure.2 ⟨rfl, rfl⟩), hmisses.bind_left, hend⟩
  · exact .inr (tooDeep_bind_left hdeep)

theorem Stuck.optional {p : Rule α} (h : Stuck p x) : Stuck (Rule.optional p) x := by
  rcases h with ⟨a, rest, hread, hmisses, hend⟩ | hdeep
  · exact .inl ⟨some a, rest, hread.optional, hmisses.optional, hend⟩
  · exact .inr (tooDeep_optional hdeep)

theorem Stuck.runsOut_bind {p : Rule α} {k : α → Rule β} (h : Stuck p x)
    (hk : ∀ a rest, ¬ EndsBlock rest → Refuses (k a) rest) : RunsOut (p >>= k) x := by
  rcases h with ⟨a, rest, hread, hmisses, hend⟩ | hdeep
  · exact .inl ⟨hread.bind_refuses (hk a rest hend), hmisses.bind_left⟩
  · exact .inr (tooDeep_bind_left hdeep)

/-- A sequence refuses if its first part opens no levels and the second refuses behind it. -/
theorem Rule.Shallow.refuses_bind {p : Rule α} {f : α → Rule β} (hp : ∀ n, Shallow n p)
    (h : ∀ a mid, Reads p s a mid → Refuses (f a) mid) : Refuses (p >>= f) s := by
  rcases ho : (p s).outcome with ⟨a, mid⟩ | _ | left
  · exact Reads.bind_refuses ho (h a mid ho)
  · exact Refuses.bind ho
  · exact ((hp (s.length + 1)).outcome (Nat.lt_succ_self _) ho).elim

/-- Where no block ends, there is no closing tag. -/
theorem refuses_closingTag (h : ¬ EndsBlock s) : Refuses (Grammar.closingTag name) s := by
  rcases ho : (Grammar.closingTag name s).outcome with ⟨t, rest⟩ | _ | left
  · obtain rfl := eq_of_reads_closingTag ho
    exact (h endsBlock_closing).elim
  · exact ho
  · exact ((shallow_closingTag name).outcome (Nat.lt_succ_self _) ho).elim

/-! ## Closing tags -/

theorem starves_closingTag_name (hn : IsName name) : Starves (Grammar.closingTag name)
    (Output.escaped.opening ++ (mark l ++ ['/'])) := by
  refine starves_tagHead rfl (.seq (reads_token.2 (List.append_nil _).symm)
    (.bind_left (starves_expect (refuses_literal.2 ?_))))
  obtain ⟨c, cs, hcs⟩ := List.exists_cons_of_ne_nil hn.1
  rw [hcs]
  rfl

theorem starves_closingTag_close : Starves (Grammar.closingTag name)
    (Output.escaped.opening ++ (mark l ++ (['/'] ++ name.toList))) := by
  refine starves_tagHead rfl (.seq (reads_token.2 rfl) ?_)
  refine .seq (reads_expect.2 (reads_literal.2 (List.append_nil _).symm)) ?_
  exact .bind reads_tilde_nil (.bind_left (starves_token (by decide)))

/-- With the missed token in its place a closing tag is complete, or its rule starves. -/
theorem awaits_closingTag (hn : IsName name) (s : List Char) :
    Awaits (fun b w => b ≠ [] ∧ SlashTag (b ++ w) ∧
        Resolved (RunsOut (Grammar.closingTag name) (b ++ w)) (fun y => ∃ c, y = closingText name c)
          w (b ++ w))
      (Grammar.closingTag name) s := by
  refine awaits_tagHead fun l _ _ _ => .afterToken (by simp) ?_ fun _ _ => ?_
  · refine ⟨by simp [Output.opening], ⟨l, [], by simp⟩, .further (.inl ?_)⟩
    simpa using starves_closingTag_name hn
  refine Awaits.bind (awaits_expect (silent_literal _) fun w hw => ⟨?_, ?_⟩) fun _ mid hmid => ?_
  · obtain rfl := Option.some.inj hw
    exact hn.1
  · obtain rfl := Option.some.inj hw
    refine ⟨by simp [Output.opening], ⟨l, name.toList, by simp⟩, .further (.inl ?_)⟩
    simpa using starves_closingTag_close
  refine ⟨name.toList, reads_literal.1 (reads_expect.1 hmid), .afterTilde fun r _ _ _ => ?_⟩
  refine .bind_silent (awaits_token (by decide) ⟨by simp [Output.opening], ?_, ?_⟩) fun _ _ => rfl
  · exact ⟨l, name.toList ++ (mark r ++ Output.escaped.closing), by simp⟩
  · exact .closed [] rfl ⟨⟨l, r⟩, by simp [closings, closingText]⟩

/-! ## Alternatives -/

/-- The rule reads some of the markers. -/
structure ReadsMarks (marker : Rule Bool) (allowed : Bool → Prop) : Prop where
  silent : marker.Silent
  shallow : ∀ n, Shallow n marker
  reads : ∀ {b s}, allowed b → headIs (· = '~') s = false → Reads marker (mark b ++ s) b s
  forms : ∀ {s b rest}, Reads marker s b rest → allowed b ∧ s = mark b ++ rest

theorem readsMarks_tilde : ReadsMarks Grammar.tilde fun _ => True where
  silent := silent_tilde
  shallow _ := shallow_tilde
  reads _ hs := reads_tilde.2 ⟨rfl, fun _ => hs⟩
  forms h := ⟨trivial, (reads_tilde.1 h).1⟩

theorem readsMarks_none : ReadsMarks (pure false) fun b => b = false where
  silent _ := rfl
  shallow _ := shallow_pure _
  reads hb _ := reads_pure.2 ⟨hb, by rw [hb]; rfl⟩
  forms h := by
    obtain ⟨rfl, rfl⟩ := reads_pure.1 h
    exact ⟨rfl, rfl⟩

/-- An `else` tag whose markers are read by the rule for them, and what follows. -/
def elseBranch (marker : Rule Bool) (k : Bool → Bool → Rule β) : Rule β := do
  Grammar.literal Output.escaped.opening
  let left ← marker
  Grammar.blanks
  Grammar.token elseWord
  Grammar.blanks
  let right ← marker
  Grammar.close .escaped
  k left right

theorem markedElse_eq : Grammar.markedElse rBody =
    elseBranch Grammar.tilde fun left right => do return (⟨left, right⟩, ← rBody) := rfl

theorem plainElse_eq : Grammar.plainElse rBody = elseBranch (pure false) fun _ _ => rBody := rfl

section
variable {marker : Rule Bool} {allowed : Bool → Prop} {k : Bool → Bool → Rule β}
variable (hmarks : ReadsMarks marker allowed)
include hmarks

theorem refuses_elseBranch (h : ¬ EndsBlock s) : Refuses (elseBranch marker k) s := by
  refine Shallow.refuses_bind (fun _ => shallow_literal _) fun _ s₁ h₁ => ?_
  refine Shallow.refuses_bind hmarks.shallow fun l s₂ h₂ => ?_
  refine Shallow.refuses_bind (fun _ => shallow_blanks) fun _ s₃ h₃ => ?_
  refine Shallow.refuses_bind (fun _ => shallow_token _) fun _ s₄ h₄ => ?_
  refine Shallow.refuses_bind (fun _ => shallow_blanks) fun _ s₅ h₅ => ?_
  refine Shallow.refuses_bind hmarks.shallow fun r s₆ h₆ => ?_
  refine Shallow.refuses_bind (fun _ => shallow_token _) fun _ s₇ h₇ => ?_
  obtain rfl := reads_literal.1 h₁
  obtain ⟨-, rfl⟩ := hmarks.forms h₂
  obtain ⟨g, hg, -, rfl⟩ := reads_blanks.1 h₃
  obtain rfl := reads_token.1 h₄
  obtain ⟨g', hg', -, rfl⟩ := reads_blanks.1 h₅
  obtain ⟨-, rfl⟩ := hmarks.forms h₆
  obtain rfl := reads_token.1 h₇
  exact (h (endsBlock_else hg hg')).elim

/-- Behind an `else` tag its rule goes on with the alternative. -/
theorem goesOn_elseBranch {g' : List Char} (hl : allowed l) (hr : allowed r) (hg : Blanks g)
    (hg' : Blanks g') : GoesOn (elseBranch marker k) (Output.escaped.opening ++ (mark l ++ (g ++
      (elseWord ++ (g' ++ (mark r ++ (Output.escaped.closing ++ x))))))) (k l r) x := by
  refine .seq (reads_literal.2 rfl) (.bind (hmarks.reads hl ((notBlank_eq rfl).headIs hg rfl)) ?_)
  refine .seq (reads_blanks.2 ⟨g, hg, rfl, rfl⟩) (.seq (reads_token.2 rfl) ?_)
  refine .seq (reads_blanks.2 ⟨g', hg', ?_, rfl⟩) (.bind (hmarks.reads hr rfl) ?_)
  · exact headIs_append_eq_false (headIs_mark (by decide)) rfl
  · exact .seq (reads_token.2 rfl) (.refl _ _)

end

/-- What is known of a token that a rule for an alternative misses behind `b`: it is the word `else`
itself, or the text ends a block and the token leads on in it. -/
def AwaitedInElse (p : Rule β) (E : List Char → Prop) (b w : List Char) : Prop :=
  b ≠ [] ∧ ((∃ l g, Blanks g ∧ b ++ w = Output.escaped.opening ++ (mark l ++ (g ++ elseWord))) ∨
    EndsBlock (b ++ w) ∧ Resolved (Stuck p (b ++ w)) E w (b ++ w))

/-- The body of a block: what is read is what is written, and a missed token leads on in it. -/
structure AwaitsBody (rBody : Rule Block) (body : Block → List Char → Prop) : Prop where
  reads : ReadsBody rBody body
  forms : FormsBody rBody body
  empty : body [] [] ∨ (rBody []).outcome = .tooDeep 0
  stopsAtElse : ∀ {b u l g}, body b u → Blanks g →
    Stuck rBody (u ++ (Output.escaped.opening ++ (mark l ++ (g ++ elseWord))))
  awaits : ∀ s, Awaits (fun b w => Resolved (Stuck rBody (b ++ w)) (fun y => ∃ n, body n y) w
    (b ++ w)) rBody s

/-- The alternative of a block, with the texts `E` that write one or none. -/
structure AwaitsElse (rElse : Rule β) (E : List Char → Prop) : Prop where
  none : E []
  reads : ∀ {v s}, E v → SlashTag s → ∃ o, Reads rElse (v ++ s) o s
  ends : ∀ {v s}, E v → SlashTag s → EndsBlock (v ++ s)
  forms : ∀ {s o rest}, rest ≠ [] → Reads rElse s o rest → ∃ v, E v ∧ s = v ++ rest
  skips : ∀ {s}, ¬ EndsBlock s → ∃ o, Reads rElse s o s
  awaits : ∀ s, Awaits (AwaitedInElse rElse E) rElse s

theorem awaits_elseBranch (body : Block → List Char → Prop) {marker : Rule Bool}
    {allowed : Bool → Prop} {k : Bool → Bool → Rule β} (hmarks : ReadsMarks marker allowed)
    (hE : ∀ {l r g g' n u}, allowed l → allowed r → Blanks g → Blanks g' → body n u →
      E (Output.escaped.opening ++ mark l ++ g ++ elseWord ++ g' ++ mark r ++
        Output.escaped.closing ++ u))
    (hempty : body [] [] ∨ ∀ l r, (k l r []).outcome = .tooDeep 0)
    (hk : ∀ l r s, Awaits (fun b w => Resolved (Stuck (k l r) (b ++ w)) (fun y => ∃ n, body n y) w
      (b ++ w)) (k l r) s) (s : List Char) :
    Awaits (AwaitedInElse (elseBranch marker k) E) (elseBranch marker k) s := by
  refine .afterLiteral fun _ _ => hmarks.silent.awaits.bind fun l _ hleft => ?_
  obtain ⟨hl, rfl⟩ := hmarks.forms hleft
  refine ⟨mark l, rfl, .afterBlanks fun g _ hg _ _ => .afterToken (by decide) ?_ fun _ _ => ?_⟩
  · exact ⟨by simp [Output.opening], .inl ⟨l, g, hg, by simp⟩⟩
  refine .afterBlanks fun g' _ hg' _ _ => hmarks.silent.awaits.bind fun r _ hright => ?_
  obtain ⟨hr, rfl⟩ := hmarks.forms hright
  have hends : ∀ x, EndsBlock (Output.escaped.opening ++ (mark l ++ (g ++ (elseWord ++ (g' ++
      (mark r ++ (Output.escaped.closing ++ x))))))) := fun _ => endsBlock_else hg hg'
  refine ⟨mark r, rfl, .afterToken (by decide) ?_ fun mid _ => (hk l r mid).mono fun b w h => ?_⟩
  · refine ⟨by simp [Output.opening], .inr ⟨by simpa using hends [], ?_⟩⟩
    rcases hempty with hempty | hdeep
    · exact .closed [] rfl (by simpa [closings] using hE hl hr hg hg' hempty)
    · have hstuck := Stuck.of_goesOn (goesOn_elseBranch hmarks hl hr hg hg') (.inr (hdeep l r))
      exact .further (by simpa using hstuck)
  · refine ⟨by simp [Output.opening], .inr ⟨by simpa using hends (b ++ w), ?_⟩⟩
    cases h with
    | further h =>
      have hstuck := Stuck.of_goesOn (goesOn_elseBranch hmarks hl hr hg hg') h
      exact .further (by simpa using hstuck)
    | closed names hw h =>
      obtain ⟨n, h⟩ := h
      exact .closed names hw (by simpa using hE hl hr hg hg' h)
    | vetoed hw h =>
      have hvetoed := h.append_left (u := Output.escaped.opening ++ (mark l ++ (g ++ (elseWord ++
        (g' ++ (mark r ++ Output.escaped.closing))))))
      exact .vetoed hw (by simpa using hvetoed)

theorem AwaitedInElse.optional {p : Rule β} {b : List Char} (h : AwaitedInElse p E b w) :
    AwaitedInElse (Rule.optional p) E b w := by
  obtain ⟨hne, h | ⟨hend, h⟩⟩ := h
  · exact ⟨hne, .inl h⟩
  · exact ⟨hne, .inr ⟨hend, h.imp Stuck.optional fun _ => id⟩⟩

theorem AwaitsBody.markedElse (hb : AwaitsBody rBody body) :
    AwaitsElse (Rule.optional (Grammar.markedElse rBody))
      fun v => ∃ o t, OtherwiseText body o t v where
  none := ⟨_, _, .none⟩
  reads := fun ⟨_, _, hv⟩ hs => ⟨_, reads_markedElse hb.reads hv hs⟩
  ends := fun ⟨_, _, hv⟩ hs => endsBlock_otherwise hv hs
  forms hrest h := by
    obtain ⟨v, hv, rfl⟩ := otherwiseText_of_reads_markedElse hb.forms hrest h
    exact ⟨v, ⟨_, _, hv⟩, rfl⟩
  skips h := by
    rw [markedElse_eq]
    exact ⟨_, (refuses_elseBranch readsMarks_tilde h).optional⟩
  awaits s := by
    rw [markedElse_eq]
    refine Awaits.optional ((awaits_elseBranch body readsMarks_tilde ?_ ?_ ?_ s).mono
      fun _ _ h => h.optional)
    · exact fun _ _ hg hg' hu => ⟨_, _, .some hg hg' hu⟩
    · exact hb.empty.imp_right fun h _ _ => tooDeep_bind_left h
    · exact fun _ _ s => Awaits.bind_silent ((hb.awaits s).mono fun _ _ h =>
        h.imp Stuck.map fun _ => id) fun _ _ => rfl

theorem AwaitsBody.plainElse (hb : AwaitsBody rBody body) :
    AwaitsElse (Rule.optional (Grammar.plainElse rBody))
      fun v => ∃ o, OtherwiseText body o .none v where
  none := ⟨_, .none⟩
  reads := fun ⟨_, hv⟩ hs => ⟨_, reads_plainElse hb.reads hv hs⟩
  ends := fun ⟨_, hv⟩ hs => endsBlock_otherwise hv hs
  forms hrest h := by
    obtain ⟨v, hv, rfl⟩ := otherwiseText_of_reads_plainElse hb.forms hrest h
    exact ⟨v, ⟨_, hv⟩, rfl⟩
  skips h := by
    rw [plainElse_eq]
    exact ⟨_, (refuses_elseBranch readsMarks_none h).optional⟩
  awaits s := by
    rw [plainElse_eq]
    refine Awaits.optional ((awaits_elseBranch body readsMarks_none ?_ ?_ ?_ s).mono
      fun _ _ h => h.optional)
    · rintro _ _ g g' n u rfl rfl hg hg' hu
      exact ⟨_, .some hg hg' hu⟩
    · exact hb.empty.imp_right fun h _ _ => h
    · exact fun _ _ => hb.awaits

/-! ## The rest of a block -/

/-- What follows the head of a block, where `E` are the texts that write an alternative or none. -/
def TailText (body : Block → List Char → Prop) (E : List Char → Prop) (name : String)
    (y : List Char) : Prop :=
  ∃ first u v c, body first u ∧ E v ∧ y = u ++ (v ++ closingText name c)

section
variable {f : Block → β → Trim → Node} {first : Block} {b : List Char}
variable (hb : AwaitsBody rBody body) (he : AwaitsElse rElse E)
include he

theorem Stuck.runsOut_blockTail (h : Stuck rBody x) :
    RunsOut (blockTail rBody rElse name f) x := by
  refine h.runsOut_bind fun a rest hend => ?_
  obtain ⟨o, ho⟩ := he.skips hend
  exact ho.bind_refuses (refuses_closingTag hend).bind

theorem resolved_body (h : Resolved (Stuck rBody x) (fun y => ∃ n, body n y) w x) :
    Resolved (RunsOut (blockTail rBody rElse name f) x) (TailText body E name) w x := by
  cases h with
  | further h => exact .further (h.runsOut_blockTail he)
  | closed names hw h =>
    obtain ⟨n, h⟩ := h
    refine .closed (names ++ [name]) hw ⟨n, _, [], .none, h, he.none, ?_⟩
    rw [closings_append, closings_singleton, List.nil_append, List.append_assoc]
  | vetoed hw h => exact .vetoed hw h

include hb

theorem resolved_else (hu : body first u) (h : AwaitedInElse rElse E b w) :
    Resolved (RunsOut (blockTail rBody rElse name f) (u ++ (b ++ w))) (TailText body E name) w
      (u ++ (b ++ w)) := by
  obtain ⟨-, ⟨l, g, hg, hword⟩ | ⟨hend, h⟩⟩ := h
  -- A bare `else` is no tag yet, so the body is read on into it.
  · rw [hword]
    exact .further ((hb.stopsAtElse hu hg).runsOut_blockTail he)
  have hgoes : GoesOn (blockTail rBody rElse name f) (u ++ (b ++ w)) _ (b ++ w) :=
    .bind (hb.reads hu hend) (.refl _ _)
  cases h with
  | further h =>
    exact .further (hgoes.runsOut (h.runsOut_bind fun _ _ hend => (refuses_closingTag hend).bind))
  | closed names hw h =>
    refine .closed (names ++ [name]) hw ⟨first, u, _, .none, hu, h, ?_⟩
    rw [closings_append, closings_singleton]
    simp
  | vetoed hw h => exact .vetoed hw h.append_left

theorem resolved_closing (hu : body first u) (hv : E v) (hs : SlashTag x)
    (h : Resolved (RunsOut (Grammar.closingTag name) x) (fun y => ∃ c, y = closingText name c) w
      x) :
    Resolved (RunsOut (blockTail rBody rElse name f) (u ++ (v ++ x))) (TailText body E name) w
      (u ++ (v ++ x)) := by
  obtain ⟨o, ho⟩ := he.reads hv hs
  have hgoes : GoesOn (blockTail rBody rElse name f) (u ++ (v ++ x)) _ x :=
    .bind (hb.reads hu (he.ends hv hs)) (.bind ho (.refl _ _))
  cases h with
  | further h => exact .further (hgoes.runsOut h.bind_left)
  | closed names hw h =>
    obtain ⟨c, hc⟩ := h
    exact .closed names hw ⟨first, u, v, c, hu, hv, by rw [← hc]; simp⟩
  | vetoed hw h => exact .vetoed hw h.append_left.append_left

/-- A token that is missed behind the head of a block leads on, or is the end of a tag. -/
theorem awaits_blockTail (hn : IsName name) (s : List Char) :
    Awaits (fun b w => Resolved (RunsOut (blockTail rBody rElse name f) (b ++ w))
      (TailText body E name) w (b ++ w)) (blockTail rBody rElse name f) s := by
  -- Not by `Awaits.bind`: what a body reads is known to be written only once text follows it.
  intro m hm w hw
  rcases mem_misses_bind.1 hm with hm | ⟨first, mid, hfirst, hm⟩
  · obtain ⟨b, c, hs, hleft, hne, h⟩ := hb.awaits s m hm w hw
    exact ⟨b, c, hs, hleft, hne, resolved_body he h⟩
  rcases mem_misses_bind.1 hm with hm | ⟨o, mid', ho, hm⟩
  · obtain ⟨b, c, rfl, hleft, hne, h⟩ := he.awaits mid m hm w hw
    obtain ⟨u, hu, rfl⟩ := hb.forms (List.append_ne_nil_of_left_ne_nil h.1 c) hfirst
    refine ⟨u ++ b, c, by simp, hleft, hne, ?_⟩
    simpa only [List.append_assoc] using resolved_else hb he hu h
  · have hm := (mem_misses_bind_silent fun _ _ => rfl).1 hm
    obtain ⟨b, c, rfl, hleft, hne, hb0, hslash, h⟩ := awaits_closingTag hn mid' m hm w hw
    have hmid' := List.append_ne_nil_of_left_ne_nil hb0 c
    obtain ⟨v, hv, rfl⟩ := he.forms hmid' ho
    obtain ⟨u, hu, rfl⟩ := hb.forms (List.append_ne_nil_of_right_ne_nil v hmid') hfirst
    refine ⟨u ++ (v ++ b), c, by simp, hleft, hne, ?_⟩
    simpa only [List.append_assoc] using resolved_closing hb he hu hv hslash h

end

end BraceTemplate
