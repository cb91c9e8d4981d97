import BraceTemplate.Proofs.Grammar.Awaited.Basic
import BraceTemplate.Proofs.Grammar.Soundness

/-!
# Fixed texts that parameters wait for

In a list of parameters or arguments the fixed texts that can be missed are closing quotes, closing
parentheses and signs between keys and values. With the one that was missed in its place, an item
is read to the end of the text, or it starves there (`Closes`). In the second case a list stops
before that item, and the text behind it starts like no end of a tag (`BreaksOff`).
-/

namespace BraceTemplate

open Rule

variable {α : Type} {x w : List Char} {r : Rule α} {T : α → List Char → Prop}
variable {f : α → Param} {F : List Char → Prop} {q : Char → Bool}

/-! ## Lists -/

/-- The rule reads the text to its end, or starves there. -/
def Closes (r : Rule α) (x : List Char) : Prop := (∃ a, Reads r x a []) ∨ Starves r x

/-- The rule reads up to the end of the text, or it misses something there and leaves a text that
starts, behind blanks, with a character of the class. -/
def BreaksOff (q : Char → Bool) (r : Rule α) (x : List Char) : Prop :=
  ∃ a rest, Reads r x a rest ∧ (rest = [] ∨ MissesEnd r x ∧ headIs q (skipBlanks rest) = true)

/-- The same, but the rule may also starve. -/
def Halts (q : Char → Bool) (r : Rule α) (x : List Char) : Prop :=
  BreaksOff q r x ∨ Starves r x ∧ headIs q (skipBlanks x) = true

/-- The rule reads items, and what it misses in an item comes behind a character of the class with
which the item starts. -/
structure AwaitsItems (r : Rule α) (T : α → List Char → Prop) (f : α → Param)
    (F : List Char → Prop) (q : Char → Bool) : Prop extends ReadsItems r T f F where
  forms : Forms r T
  start : ∀ c, q c = true → isParamStart c = true
  awaits : ∀ s, Awaits (fun b w => headIs q b = true ∧ Closes r (b ++ w)) r s

theorem headIs_append_of_true (h : headIs q x = true) : headIs q (x ++ w) = true :=
  (headIs_append (ne_nil_of_headIs h)).trans h

theorem headIs_imp {p : Char → Bool} (h : headIs q x = true) (hq : ∀ c, q c = true → p c = true) :
    headIs p x = true := by
  cases x with
  | nil => cases h
  | cons c x => exact hq c h

theorem headIs_skipBlanks_append (h : headIs q (skipBlanks x) = true) :
    headIs q (skipBlanks (x ++ w)) = true := by
  induction x with
  | nil => cases h
  | cons c x ih =>
    by_cases hc : isBlank c = true
    · simp only [skipBlanks, List.cons_append, List.dropWhile_cons, hc, if_true] at h ⊢
      exact ih h
    · simp only [skipBlanks, List.cons_append, List.dropWhile_cons, hc] at h ⊢
      exact h

theorem Apart.append (h : Apart x) : Apart (x ++ w) := by
  obtain ⟨g, t, hne, hg, ht, rfl⟩ := h
  exact ⟨g, t ++ w, hne, hg, headIs_append_of_true ht, by simp⟩

theorem headIs_blanks_append {g : List Char} (hne : g ≠ []) (hg : Blanks g) :
    headIs isBlank (g ++ x) = true := by
  obtain ⟨c, g, rfl⟩ := List.exists_cons_of_ne_nil hne
  exact hg c (by simp)

theorem skipBlanks_append_start {g : List Char} (hg : Blanks g) (hx : headIs q x = true)
    (hq : ∀ c, q c = true → isParamStart c = true) : headIs q (skipBlanks (g ++ x)) = true := by
  rw [skipBlanks_paramStart hg (headIs_imp hx hq)]
  exact hx

/-- Behind an item that is there, a list with blanks between its items breaks off where the text
behind the item does. -/
theorem ReadsItems.breaksOff (h : ReadsItems r T f F) {g u : List Char} {a : α} (hne : g ≠ [])
    (hg : Blanks g) (hu : T a u) (hx : Apart x)
    (hbreak : BreaksOff q (Rule.many do Grammar.space; r) x) :
    BreaksOff q (Rule.many do Grammar.space; r) (g ++ (u ++ x)) := by
  obtain ⟨as, rest, hmany, hrest⟩ := hbreak
  have hread : Reads (do Grammar.space; r) (g ++ (u ++ x)) a x :=
    .afterSpace hne hg (h.starts.notBlank hu) (h.reads hu (h.apart hx) fun _ => hx.closesTag)
  have hlt : x.length < (g ++ (u ++ x)).length := by
    have := List.length_pos_iff.2 hne
    simp only [List.length_append]
    omega
  exact ⟨a :: as, rest, .many hread hlt hmany,
    hrest.imp_right fun hend => ⟨hend.1.many hread hlt, hend.2⟩⟩

/-- An item that closes ends the list, and before one that starves the list breaks off. -/
theorem AwaitsItems.breaksOff_item (h : AwaitsItems r T f F q) {g : List Char} (hne : g ≠ [])
    (hg : Blanks g) (hx : headIs q x = true) (hc : Closes r x) :
    BreaksOff q (Rule.many do Grammar.space; r) (g ++ x) := by
  have hspace : Reads Grammar.space (g ++ x) () x := reads_space.2
    ⟨g, hne, hg, headIs_of_headIs (headIs_imp hx h.start) not_isBlank_of_isParamStart, rfl⟩
  rcases hc with ⟨a, ha⟩ | hc
  · have hlt : ([] : List Char).length < (g ++ x).length :=
      List.length_pos_iff.2 (List.append_ne_nil_of_left_ne_nil hne x)
    exact ⟨[a], [], .many (hspace.seq ha) hlt (Refuses.many (Refuses.bind rfl)), .inl rfl⟩
  · exact ⟨[], _, (hspace.seq_refuses hc.refuses).many,
      .inr ⟨(hc.missesEnd.bind hspace).many_left, skipBlanks_append_start hg hx h.start⟩⟩

theorem AwaitsItems.many (h : AwaitsItems r T f F q) (s : List Char) :
    Awaits (fun b w => Apart b ∧ BreaksOff q (Rule.many do Grammar.space; r) (b ++ w))
      (Rule.many do Grammar.space; r) s := by
  refine Awaits.many (fun s => .afterSpace fun g mid hne hg _ _ => (h.awaits mid).mono ?_) ?_
  · rintro b w ⟨hb, hc⟩
    refine ⟨⟨g, b, hne, hg, headIs_imp hb h.start, rfl⟩, ?_⟩
    rw [List.append_assoc]
    exact h.breaksOff_item hne hg (headIs_append_of_true hb) hc
  · rintro s a b c w hread - ⟨hb, hbreak⟩
    obtain ⟨g, mid, hne, hg, rfl, hitem⟩ := exists_of_reads_space hread
    obtain ⟨u, hu, rfl⟩ := h.forms hitem
    refine ⟨g ++ u, by simp, ⟨g, u ++ b, hne, hg, h.starts.append hu, by simp⟩, ?_⟩
    simpa using h.breaksOff hne hg hu hb.append hbreak

theorem AwaitsItems.separated (h : AwaitsItems r T f F q) (s : List Char) :
    Awaits (fun b w => headIs isParamStart b = true ∧
        Halts q (Rule.separated Grammar.space r) (b ++ w))
      (Rule.separated Grammar.space r) s := by
  refine ((h.awaits s).mono ?_).bind fun a mid ha => ?_
  · rintro b w ⟨hb, hc⟩
    refine ⟨headIs_imp hb h.start, ?_⟩
    have hbw : headIs q (b ++ w) = true := headIs_append_of_true hb
    rcases hc with ⟨a, ha⟩ | hc
    · exact .inl ⟨[a], [], reads_separated.2
        ⟨a, [], [], rfl, ha, Refuses.many (Refuses.bind rfl)⟩, .inl rfl⟩
    · exact .inr ⟨hc.bind_left, skipBlanks_append_start (g := []) blanks_nil hbw h.start⟩
  · obtain ⟨u, hu, rfl⟩ := h.forms ha
    refine ⟨u, rfl, Awaits.bind_silent ((h.many mid).mono ?_) fun _ _ => rfl⟩
    rintro b w ⟨hb, as, rest, hmany, hrest⟩
    refine ⟨h.starts.append hu, .inl ⟨a :: as, rest, ?_, ?_⟩⟩
    all_goals
      rw [List.append_assoc]
    · exact reads_separated.2 ⟨a, as, _, rfl,
        h.reads hu (h.apart hb.append) fun _ => hb.append.closesTag, hmany⟩
    · refine hrest.imp_right fun hend => ⟨?_, hend.2⟩
      exact hend.1.bind_left.bind (h.reads hu (h.apart hb.append) fun _ => hb.append.closesTag)

/-- What follows a rule that breaks off starves if it starves at the end and refuses a text that
starts with a character of the class. -/
theorem BreaksOff.starves_bind {β : Type} {k : α → Rule β} (h : BreaksOff q r x)
    (hnil : ∀ a, Starves (k a) [])
    (hrest : ∀ a rest, headIs q (skipBlanks rest) = true → Refuses (k a) rest) :
    Starves (r >>= k) x := by
  obtain ⟨a, rest, hread, rfl | ⟨hmisses, hstart⟩⟩ := h
  · exact .bind hread (hnil a)
  · exact ⟨hread.bind_refuses (hrest a rest hstart), hmisses.bind_left⟩

theorem BreaksOff.map {β : Type} {k : α → β} (h : BreaksOff q r x) :
    BreaksOff q (do return k (← r)) x := by
  obtain ⟨a, rest, hread, hrest⟩ := h
  exact ⟨k a, rest, hread.bind (reads_pure.2 ⟨rfl, rfl⟩), hrest.imp_right fun h =>
    ⟨h.1.bind_left, h.2⟩⟩

theorem Halts.optional (h : Halts q r x) : BreaksOff q (Rule.optional r) x := by
  rcases h with ⟨a, rest, hread, hrest⟩ | ⟨hstarves, hstart⟩
  · exact ⟨some a, rest, hread.optional, hrest.imp_right fun h => ⟨h.1.optional, h.2⟩⟩
  · exact ⟨none, x, hstarves.refuses.optional, .inr ⟨hstarves.missesEnd.optional, hstart⟩⟩

theorem Halts.seq {before : Rule Unit} {g : List Char} (hg : Blanks g)
    (hread : Reads before (g ++ x) () x) (h : Halts q r x) : Halts q (do before; r) (g ++ x) := by
  rcases h with ⟨a, rest, ha, hrest⟩ | ⟨hstarves, hstart⟩
  · exact .inl ⟨a, rest, hread.seq ha, hrest.imp_right fun h => ⟨h.1.bind hread, h.2⟩⟩
  · exact .inr ⟨hstarves.bind hread, by rwa [skipBlanks_append hg]⟩

/-! ## Parameters -/

section
variable {rInner : Rule (List Param)} {inner : List Param → List Char → Prop}

/-- What the rule for the parameters of a subexpression misses comes, behind blanks, behind the
start of a parameter. -/
def AwaitsInner (r : Rule (List Param)) : Prop :=
  ∀ s, Awaits (fun b w => headIs isParamStart (skipBlanks b) = true ∧
    BreaksOff isTightStart r (b ++ w)) r s

theorem awaits_quotedBy {c : Char} (hc : isQuote c) (s : List Char) :
    Awaits (fun b w => headIs isTightStart b = true ∧
        ∃ text, c ∉ text ∧ b ++ w = [c] ++ text ++ [c])
      (Grammar.quotedBy c) s := by
  refine .afterLiteral fun mid hs => (silent_run _).awaits.bind fun text mid' hrun => ?_
  obtain ⟨htext, -, rfl⟩ := reads_run.1 hrun
  refine ⟨text, rfl, Awaits.bind_silent (awaits_expect (silent_literal _) fun w hw => ?_)
    fun _ _ => rfl⟩
  obtain rfl : [c] = w := Option.some.inj hw
  refine ⟨by simp, ?_, text, fun hmem => ?_, by simp⟩
  · rcases hc with rfl | rfl <;> rfl
  · simpa using htext c hmem

/-- At the end of the text every parameter is read. -/
theorem reads_parameter_nil (hi : ReadsBehindName rInner inner) {p : Param}
    (h : ParamText inner p w) : Reads (Grammar.parameter rInner) w p [] := by
  have hread : Reads (Grammar.parameter rInner) (w ++ []) p [] :=
    reads_parameter hi h ⟨rfl, rfl⟩ fun _ => rfl
  rwa [List.append_nil] at hread

/-- A quoted text that is closed is a parameter. -/
theorem closes_parameter_quoted (hi : ReadsBehindName rInner inner) {c : Char} {text : List Char}
    (hc : isQuote c) (htext : c ∉ text) :
    Closes (Grammar.parameter rInner) ([c] ++ text ++ [c]) := by
  have hparam : ParamText inner (.literal (String.ofList text)) _ :=
    .literal hc (by simpa using htext)
  exact .inl ⟨_, by simpa using reads_parameter_nil hi hparam⟩

/-- No token is there where the text starts with a character of a class without its own first. -/
theorem refuses_token_of_headIs {c : Char} (h : headIs q x = true) (hc : q c = false) :
    Refuses (Grammar.token (c :: w)) x := by
  refine refuses_token.2 (stripPrefix_cons_eq_none (headIs_of_headIs h fun d hd => ?_))
  simp only [decide_eq_false_iff_not]
  rintro rfl
  rw [hc] at hd
  cases hd

/-- A subexpression starves where its parameters break off. -/
theorem starves_parameter_call {g : List Char} {name : String} (hg : Blanks g) (hn : IsName name)
    (hnext : headIs isNameChar x = false) (hstart : headIs isParamStart (skipBlanks x) = true)
    (hbreak : BreaksOff isTightStart rInner x) :
    Starves (Grammar.parameter rInner) (['('] ++ (g ++ (name.toList ++ x))) := by
  have hclose : closesTag x = false :=
    closesTag_eq_false (headIs_of_headIs hstart not_isTagEnd_of_isParamStart)
  refine .seq (reads_refuse.2 ⟨rfl, rfl⟩) ?_
  refine Starves.firstOf [_, _] [] ?_ ?_ nofun
  · simp only [List.mem_cons, List.not_mem_nil, or_false, forall_eq_or_imp, forall_eq]
    exact ⟨Refuses.bind (Refuses.bind (refuses_identifier.2 (.inr rfl))),
      Refuses.bind (refuses_orElse.2 ⟨refuses_quotedBy rfl, refuses_quotedBy rfl⟩)⟩
  · refine .seq (reads_literal.2 rfl) (.seq (reads_blanks.2
      ⟨g, hg, hn.headIs_blank notBlank_isNameChar, rfl⟩) ?_)
    refine .bind (reads_name hn hnext fun _ => hclose) (hbreak.starves_bind ?_ ?_)
    · exact fun _ => .seq reads_blanks_nil (.bind_left (starves_token (by simp)))
    · exact fun _ _ hrest => refuses_blanks_bind (Refuses.bind (refuses_token_of_headIs hrest rfl))

theorem awaits_subexpression (hi : ReadsBehindName rInner inner)
    (hforms : FormsBehindName rInner inner) (ha : AwaitsInner rInner) (s : List Char) :
    Awaits (fun b w => headIs isTightStart b = true ∧ Closes (Grammar.parameter rInner) (b ++ w))
      (Grammar.subexpression rInner) s := by
  refine .afterLiteral fun _ _ => .afterBlanks fun g _ hg _ _ => ?_
  refine .afterName fun name mid hn hnext _ _ => ((ha mid).imp ?_).bind fun params _ hp => ?_
  · rintro b c w rfl ⟨hstart, hbreak⟩
    have hne : b ≠ [] := by
      rintro rfl
      cases hstart
    have hnext' : headIs isNameChar (b ++ w) = false := by
      rwa [headIs_append hne] at hnext ⊢
    have hstarves := starves_parameter_call hg hn hnext' (headIs_skipBlanks_append hstart) hbreak
    exact ⟨rfl, .inr (by simpa using hstarves)⟩
  · obtain ⟨w, hw, rfl⟩ := hforms hnext hp
    refine ⟨w, rfl, .afterBlanks fun g' _ hg' _ _ => .bind_silent (awaits_token (by simp) ?_)
      fun _ _ => rfl⟩
    have hread := reads_parameter_nil hi (.call hg hn hw hg')
    exact ⟨rfl, .inl ⟨_, by simpa using hread⟩⟩

theorem awaitsItems_parameter (hi : ReadsBehindName rInner inner)
    (hforms : FormsBehindName rInner inner) (ha : AwaitsInner rInner) :
    AwaitsItems (Grammar.parameter rInner) (ParamText inner) id Follows isTightStart where
  toReadsItems := readsItems_parameter hi
  forms := forms_parameter hforms
  start := isParamStart_of_isTightStart
  awaits s := by
    refine Awaits.bind (fun m hm => (List.not_mem_nil hm).elim) fun _ mid hmid => ?_
    obtain ⟨-, rfl⟩ := reads_refuse.1 hmid
    refine ⟨[], rfl, awaits_firstOf ?_⟩
    simp only [List.mem_cons, List.not_mem_nil, or_false, forall_eq_or_imp, forall_eq]
    refine ⟨.bind_silent wordless_path.awaits fun _ _ => rfl, .bind_silent ?_ fun _ _ => rfl,
      awaits_subexpression hi hforms ha mid⟩
    have hquoted : ∀ {c}, isQuote c → Awaits (fun b w => headIs isTightStart b = true ∧
        Closes (Grammar.parameter rInner) (b ++ w)) (Grammar.quotedBy c) mid := by
      refine fun hc => (awaits_quotedBy hc mid).mono ?_
      rintro b w ⟨hb, text, htext, heq⟩
      exact ⟨hb, heq ▸ closes_parameter_quoted hi hc htext⟩
    exact (hquoted (.inl rfl)).orElse (hquoted (.inr rfl))

/-! ## Lists behind a name -/

/-- The text `b` begins a list behind blanks, and with `w` behind it the rule for the list halts. -/
def HaltsBehind (q : Char → Bool) (r : Rule α) (b w : List Char) : Prop :=
  ∃ g y, b = g ++ y ∧ Blanks g ∧ headIs isParamStart y = true ∧ Halts q r (y ++ w)

theorem HaltsBehind.start {b : List Char} (h : HaltsBehind q r b w) :
    headIs isParamStart (skipBlanks b) = true := by
  obtain ⟨g, y, rfl, hg, hy, -⟩ := h
  rwa [skipBlanks_paramStart hg hy]

/-- Such a list comes right behind a name where no name goes on, and there no path goes on. -/
theorem HaltsBehind.headIs_isPathChar {r : Rule (List α)} {b : List Char}
    (h : HaltsBehind q r b w) (hnext : headIs isNameChar b = false) :
    headIs isPathChar (b ++ w) = false := by
  obtain ⟨g, y, rfl, hg, hy, -⟩ := h
  rw [List.append_assoc]
  by_cases hg0 : g = []
  · rw [hg0, List.nil_append] at hnext ⊢
    cases y with
    | nil => cases hy
    | cons c y =>
      have hdot := ne_of_isParamStart (d := '.') (by decide) c hy
      simpa [isPathChar, show isNameChar c = false from hnext] using hdot
  · exact notBlank_isPathChar.headIs_of_ne_nil hg0 hg

theorem HaltsBehind.exists_blanks {b : List Char} (h : HaltsBehind q r b w)
    (hb : headIs isBlank b = true) : ∃ g y, g ≠ [] ∧ b = g ++ y ∧ Blanks g ∧
      headIs isBlank (y ++ w) = false ∧ Halts q r (y ++ w) := by
  obtain ⟨g, y, rfl, hg, hy, hhalts⟩ := h
  refine ⟨g, y, ?_, rfl, hg, ?_, hhalts⟩
  · rintro rfl
    rw [List.nil_append, headIs_of_headIs hy not_isBlank_of_isParamStart] at hb
    cases hb
  · exact headIs_of_headIs (headIs_append_of_true hy) not_isBlank_of_isParamStart

theorem HaltsBehind.breaksOff_blanks {b : List Char}
    (h : HaltsBehind isTightStart (Grammar.parameters rInner) b w) :
    BreaksOff isTightStart (Grammar.parametersAfter Grammar.blanks rInner) (b ++ w) := by
  obtain ⟨g, y, rfl, hg, hy, hhalts⟩ := h
  have hblank : headIs isBlank (y ++ w) = false :=
    headIs_of_headIs (headIs_append_of_true hy) not_isBlank_of_isParamStart
  rw [List.append_assoc]
  exact (hhalts.seq hg (reads_blanks.2 ⟨g, hg, hblank, rfl⟩)).optional.map

/-- What is missed in the parameters of a call comes behind the start of one. -/
theorem awaits_parametersAfter_blanks (hi : ReadsBehindName rInner inner)
    (hforms : FormsBehindName rInner inner) (ha : AwaitsInner rInner) (s : List Char) :
    Awaits (HaltsBehind isTightStart (Grammar.parameters rInner))
      (Grammar.parametersAfter Grammar.blanks rInner) s := by
  refine Awaits.bind_silent (Awaits.optional ?_) fun _ _ => rfl
  refine .afterBlanks fun g mid hg _ _ => ?_
  refine ((awaitsItems_parameter hi hforms ha).separated mid).mono ?_
  rintro b w ⟨hb, hhalts⟩
  exact ⟨g, b, rfl, hg, hb, hhalts⟩

/-- In the head of a block there is a blank before them. -/
theorem awaits_parametersAfter_space (hi : ReadsBehindName rInner inner)
    (hforms : FormsBehindName rInner inner) (ha : AwaitsInner rInner) (s : List Char) :
    Awaits (fun b w => headIs isBlank b = true ∧
        HaltsBehind isTightStart (Grammar.parameters rInner) b w)
      (Grammar.parametersAfter Grammar.space rInner) s := by
  refine Awaits.bind_silent (Awaits.optional ?_) fun _ _ => rfl
  refine .afterSpace fun g mid hne hg _ _ => ?_
  refine ((awaitsItems_parameter hi hforms ha).separated mid).mono ?_
  rintro b w ⟨hb, hhalts⟩
  exact ⟨headIs_blanks_append hne hg, g, b, rfl, hg, hb, hhalts⟩

theorem HaltsBehind.breaksOff_space {b : List Char} (hb : headIs isBlank b = true)
    (h : HaltsBehind isTightStart (Grammar.parameters rInner) b w) :
    BreaksOff isTightStart (Grammar.parametersAfter Grammar.space rInner) (b ++ w) := by
  obtain ⟨g, y, hne, rfl, hg, hy, hhalts⟩ := h.exists_blanks hb
  rw [List.append_assoc]
  exact (hhalts.seq hg (reads_space.2 ⟨g, hne, hg, hy, rfl⟩)).optional.map

theorem awaitsInner_parametersAfter (hi : ReadsBehindName rInner inner)
    (hforms : FormsBehindName rInner inner) (ha : AwaitsInner rInner) :
    AwaitsInner (Grammar.parametersAfter Grammar.blanks rInner) := fun s =>
  (awaits_parametersAfter_blanks hi hforms ha s).mono fun _ _ h => ⟨h.start, h.breaksOff_blanks⟩

theorem awaitsInner_innerParams (k : Nat) : AwaitsInner (Grammar.innerParams k) := by
  induction k with
  | zero => exact fun s m hm => (List.not_mem_nil hm).elim
  | succ k ih =>
    exact awaitsInner_parametersAfter (readsBehindName_innerParams k)
      (formsBehindName_innerParams k) ih

/-! ## Arguments -/

theorem starves_parameter : Starves (Grammar.parameter rInner) [] := by
  refine .seq (reads_refuse.2 ⟨rfl, rfl⟩) (Starves.firstOf [] [_, _] nofun ?_ ?_)
  · exact .bind_left (.bind_left starves_identifier)
  · simp only [List.mem_cons, List.not_mem_nil, or_false, forall_eq_or_imp, forall_eq]
    exact ⟨Refuses.bind (refuses_orElse.2 ⟨refuses_quotedBy rfl, refuses_quotedBy rfl⟩),
      Refuses.bind (refuses_literal.2 rfl)⟩

theorem Closes.argument {key : String} {g g' : List Char} (hk : IsName key) (hg : Blanks g)
    (hg' : Blanks g') (hx : headIs isBlank x = false)
    (h : Closes (Grammar.parameter rInner) x) :
    Closes (Grammar.argument rInner) (key.toList ++ (g ++ (['='] ++ (g' ++ x)))) := by
  have hopen : closesTag (g ++ (['='] ++ (g' ++ x))) = false := by
    refine closesTag_eq_false ?_
    rw [skipBlanks_append hg]
    rfl
  have hkey := reads_name hk (notBlank_isNameChar.headIs hg rfl) fun _ => hopen
  have hbefore : Reads Grammar.blanks (g ++ (['='] ++ (g' ++ x))) () (['='] ++ (g' ++ x)) :=
    reads_blanks.2 ⟨g, hg, rfl, rfl⟩
  have hafter : Reads Grammar.blanks (g' ++ x) () x := reads_blanks.2 ⟨g', hg', hx, rfl⟩
  have hsign : Reads (Grammar.token ['=']) (['='] ++ (g' ++ x)) () (g' ++ x) := reads_token.2 rfl
  rcases h with ⟨p, hp⟩ | h
  · exact .inl ⟨_, hkey.bind (hbefore.seq (hsign.seq (hafter.seq
      (hp.bind (reads_pure.2 ⟨rfl, rfl⟩)))))⟩
  · exact .inr (.bind hkey (.seq hbefore (.seq hsign (.seq hafter (.bind_left h)))))

theorem awaitsItems_argument (hi : ReadsBehindName rInner inner)
    (hforms : FormsBehindName rInner inner) (ha : AwaitsInner rInner) :
    AwaitsItems (Grammar.argument rInner) (ArgumentText inner) Argument.value Follows
      isNameChar where
  toReadsItems := readsItems_argument hi
  forms := forms_argument hforms
  start _ := isParamStart_of_isNameChar
  awaits s := by
    refine .afterName fun key mid hk _ _ _ => .afterBlanks fun g mid hg _ _ => ?_
    refine .afterToken (by simp) ?_ fun mid _ => .afterBlanks fun g' mid hg' _ _ => ?_
    · have hempty : Closes (Grammar.parameter rInner) [] := .inr starves_parameter
      have hcloses := hempty.argument hk hg blanks_nil rfl
      exact ⟨hk.headIs_mono id, by simpa using hcloses⟩
    · refine Awaits.bind_silent (((awaitsItems_parameter hi hforms ha).awaits mid).mono ?_)
        fun _ _ => rfl
      rintro b w ⟨hb, hc⟩
      have hblank : headIs isBlank (b ++ w) = false :=
        headIs_of_headIs (headIs_append_of_true (headIs_imp hb isParamStart_of_isTightStart))
          not_isBlank_of_isParamStart
      exact ⟨hk.headIs_mono id, by simpa using Closes.argument hk hg hg' hblank hc⟩

end

end BraceTemplate
