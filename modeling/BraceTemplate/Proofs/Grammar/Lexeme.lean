import BraceTemplate.Grammar.Token
import BraceTemplate.Proofs.Grammar.Reading

/-!
# Lexemes

The written forms of the smallest parts of a tag, and the texts that the rules for them read. A
run of characters is read to its end, so whether a rule matches can hang on the character that
comes next (`headIs`), and whether a name is read on whether it would close an `else` tag
(`closesTag`).
-/

namespace BraceTemplate

open Rule

def headIs (p : Char → Bool) (s : List Char) : Bool := s.head?.any p

@[simp] theorem headIs_nil (p : Char → Bool) : headIs p [] = false := rfl

@[simp] theorem headIs_cons (p : Char → Bool) (c : Char) (s : List Char) :
    headIs p (c :: s) = p c := rfl

theorem headIs_append {p : Char → Bool} {w s : List Char} (h : w ≠ []) :
    headIs p (w ++ s) = headIs p w := by
  cases w with
  | nil => exact (h rfl).elim
  | cons c w => rfl

theorem headIs_of_append {p : Char → Bool} {w s : List Char} (h : headIs p (w ++ s) = false) :
    headIs p w = false := by
  cases w with
  | nil => rfl
  | cons c w => exact h

theorem headIs_append_eq_false {q : Char → Bool} {w v : List Char} (hw : headIs q w = false)
    (hv : headIs q v = false) : headIs q (w ++ v) = false := by
  cases w with
  | nil => exact hv
  | cons c w => exact hw

theorem headIs_dropWhile (p : Char → Bool) (s : List Char) : headIs p (s.dropWhile p) = false := by
  induction s with
  | nil => rfl
  | cons c s ih => by_cases h : p c <;> simp [h, ih]

theorem takeWhile_run {p : Char → Bool} {w s : List Char} (hw : ∀ c ∈ w, p c = true)
    (hs : headIs p s = false) : (w ++ s).takeWhile p = w := by
  rw [List.takeWhile_append_of_pos hw]
  cases s with
  | nil => simp
  | cons c s => simp_all

theorem dropWhile_run {p : Char → Bool} {w s : List Char} (hw : ∀ c ∈ w, p c = true)
    (hs : headIs p s = false) : (w ++ s).dropWhile p = s := by
  rw [List.dropWhile_append_of_pos hw]
  cases s with
  | nil => simp
  | cons c s => simp_all

/-- A text splits in one way into a run of characters of a class and a rest that starts with none
of them. -/
theorem run_unique {p : Char → Bool} {w s rest : List Char} :
    w = s.takeWhile p ∧ rest = s.dropWhile p ↔
      (∀ c ∈ w, p c = true) ∧ headIs p rest = false ∧ s = w ++ rest := by
  constructor
  · rintro ⟨rfl, rfl⟩
    exact ⟨List.all_eq_true.1 List.all_takeWhile, headIs_dropWhile p s, by simp⟩
  · rintro ⟨hw, hs, rfl⟩
    exact ⟨(takeWhile_run hw hs).symm, (dropWhile_run hw hs).symm⟩

/-! ## Fixed texts -/

variable {s rest w b : List Char} {u : Unit}

theorem reads_literal : Reads (Grammar.literal w) s u rest ↔ s = w ++ rest := by
  unfold Reads Grammar.literal
  rw [← stripPrefix_eq_some]
  split <;> rename_i h <;> simp [h]

theorem refuses_literal : Refuses (Grammar.literal w) s ↔ stripPrefix w s = none := by
  unfold Refuses Grammar.literal
  split <;> rename_i h <;> simp [h]

theorem reads_token : Reads (Grammar.token w) s u rest ↔ s = w ++ rest :=
  reads_expect.trans reads_literal

theorem refuses_token : Refuses (Grammar.token w) s ↔ stripPrefix w s = none :=
  refuses_expect.trans refuses_literal

/-- A fixed text is refused where another character stands in place of its first. -/
theorem stripPrefix_cons_eq_none {c : Char} (h : headIs (· = c) s = false) :
    stripPrefix (c :: w) s = none := by
  cases s with
  | nil => rfl
  | cons d s => simp_all [stripPrefix, eq_comm]

theorem stripPrefix_append (w s : List Char) : stripPrefix w (w ++ s) = some s :=
  stripPrefix_eq_some.2 rfl

/-! ## Runs -/

theorem reads_run {p : Char → Bool} {cs : List Char} :
    Reads (Grammar.run p) s cs rest ↔
      (∀ c ∈ cs, p c = true) ∧ headIs p rest = false ∧ s = cs ++ rest := by
  rw [← run_unique]
  simp only [Reads, Grammar.run, Outcome.ok.injEq]
  exact and_congr eq_comm eq_comm

theorem reads_run1 {p : Char → Bool} {cs : List Char} :
    Reads (Grammar.run1 p) s cs rest ↔
      cs ≠ [] ∧ (∀ c ∈ cs, p c = true) ∧ headIs p rest = false ∧ s = cs ++ rest := by
  rw [← run_unique]
  unfold Reads Grammar.run1
  split
  · rename_i h
    simp only [reduceCtorEq, false_iff, not_and, h]
    exact fun hne he => (hne he).elim
  · rename_i h
    simp only [Outcome.ok.injEq]
    constructor
    · rintro ⟨rfl, rfl⟩
      exact ⟨h, rfl, rfl⟩
    · rintro ⟨-, rfl, rfl⟩
      exact ⟨rfl, rfl⟩

theorem refuses_run1 {p : Char → Bool} : Refuses (Grammar.run1 p) s ↔ headIs p s = false := by
  unfold Refuses Grammar.run1
  cases s with
  | nil => simp
  | cons c s => by_cases h : p c <;> simp [h]

/-! ## Blanks and markers -/

def Blanks (b : List Char) : Prop := ∀ c ∈ b, isBlank c = true

theorem blanks_nil : Blanks [] := nofun

theorem blanks_space : Blanks [' '] := List.forall_mem_singleton.2 rfl

theorem reads_blanks :
    Reads Grammar.blanks s u rest ↔
      ∃ b, Blanks b ∧ headIs isBlank rest = false ∧ s = b ++ rest := by
  unfold Grammar.blanks
  simp only [reads_bind, reads_run, reads_pure]
  constructor
  · rintro ⟨b, mid, ⟨hb, hm, rfl⟩, -, rfl⟩
    exact ⟨b, hb, hm, rfl⟩
  · rintro ⟨b, hb, hm, rfl⟩
    exact ⟨b, rest, ⟨hb, hm, rfl⟩, trivial, rfl⟩

theorem reads_space :
    Reads Grammar.space s u rest ↔
      ∃ b, b ≠ [] ∧ Blanks b ∧ headIs isBlank rest = false ∧ s = b ++ rest := by
  unfold Grammar.space
  simp only [reads_bind, reads_run1, reads_pure]
  constructor
  · rintro ⟨b, mid, ⟨hne, hb, hm, rfl⟩, -, rfl⟩
    exact ⟨b, hne, hb, hm, rfl⟩
  · rintro ⟨b, hne, hb, hm, rfl⟩
    exact ⟨b, rest, ⟨hne, hb, hm, rfl⟩, trivial, rfl⟩

theorem refuses_space : Refuses Grammar.space s ↔ headIs isBlank s = false := by
  unfold Grammar.space
  simp [refuses_bind, refuses_run1, not_refuses_pure]

/-- Blanks are skipped before what starts with none. -/
theorem Rule.Reads.afterBlanks {α : Type} {r : Rule α} {a : α} (hb : Blanks b)
    (hs : headIs isBlank s = false) (h : Reads r s a rest) :
    Reads (do Grammar.blanks; r) (b ++ s) a rest :=
  Reads.seq (reads_blanks.2 ⟨b, hb, hs, rfl⟩) h

theorem Rule.Reads.afterSpace {α : Type} {r : Rule α} {a : α} (hne : b ≠ []) (hb : Blanks b)
    (hs : headIs isBlank s = false) (h : Reads r s a rest) :
    Reads (do Grammar.space; r) (b ++ s) a rest :=
  Reads.seq (reads_space.2 ⟨b, hne, hb, hs, rfl⟩) h

theorem Rule.Reads.afterToken {α : Type} {r : Rule α} {a : α} (h : Reads r s a rest) :
    Reads (do Grammar.token w; r) (w ++ s) a rest :=
  Reads.seq (reads_token.2 rfl) h

theorem skipBlanks_append {b : List Char} (hb : Blanks b) : skipBlanks (b ++ s) = skipBlanks s :=
  List.dropWhile_append_of_pos hb

theorem skipBlanks_of_not_head (h : headIs isBlank s = false) : skipBlanks s = s := by
  cases s with
  | nil => rfl
  | cons c s => simp_all [skipBlanks]

def NotBlank (q : Char → Bool) : Prop := ∀ c, isBlank c = true → q c = false

theorem notBlank_of_all {q : Char → Bool}
    (h : [' ', '\t', '\n', '\x0c', '\r'].all (fun c => !q c) = true) : NotBlank q := by
  intro c hc
  simp only [isBlank, Bool.or_eq_true, decide_eq_true_eq] at hc
  simp only [List.all_cons, List.all_nil, Bool.and_true, Bool.and_eq_true,
    Bool.not_eq_eq_eq_not, Bool.not_true] at h
  obtain ⟨h1, h2, h3, h4, h5⟩ := h
  rcases hc with (((rfl | rfl) | rfl) | rfl) | rfl <;> assumption

theorem NotBlank.headIs {q : Char → Bool} (hq : NotBlank q) (hb : Blanks b)
    (hs : headIs q s = false) : headIs q (b ++ s) = false := by
  cases b with
  | nil => exact hs
  | cons c b => exact hq c (hb c (by simp))

/-- Behind at least one blank there is nothing to look at. -/
theorem NotBlank.headIs_of_ne_nil {q : Char → Bool} (hq : NotBlank q) (hne : b ≠ [])
    (hb : Blanks b) : BraceTemplate.headIs q (b ++ s) = false := by
  rw [headIs_append hne, ← List.append_nil b]
  exact hq.headIs hb rfl

theorem notBlank_eq {d : Char} (h : isBlank d = false) : NotBlank (· = d) := by
  intro c hc
  simp only [decide_eq_false_iff_not]
  rintro rfl
  rw [hc] at h
  cases h

def mark (b : Bool) : List Char := if b then ['~'] else []

@[simp] theorem mark_true : mark true = ['~'] := rfl

@[simp] theorem mark_false : mark false = [] := rfl

theorem headIs_mark {q : Char → Bool} {r : Bool} (h : q '~' = false) :
    headIs q (mark r) = false := by
  cases r with
  | false => rfl
  | true => exact h

theorem headIs_closing {q : Char → Bool} {output : Output} (h : q '}' = false) :
    headIs q (output.closing ++ s) = false := by
  cases output <;> exact h

theorem reads_tilde {b : Bool} :
    Reads Grammar.tilde s b rest ↔
      s = mark b ++ rest ∧ (b = false → headIs (· = '~') rest = false) := by
  unfold Grammar.tilde
  simp only [reads_bind, reads_pure, reads_optional, reads_literal, refuses_literal]
  constructor
  · rintro ⟨o, mid, ⟨-, rfl, rfl⟩ | ⟨rfl, h, rfl⟩, rfl, rfl⟩
    · exact ⟨rfl, nofun⟩
    · refine ⟨rfl, fun _ => ?_⟩
      cases rest with
      | nil => rfl
      | cons c rest => simpa [stripPrefix, eq_comm] using h
  · rintro ⟨rfl, h⟩
    cases b with
    | true => exact ⟨some (), rest, .inl ⟨(), rfl, rfl⟩, rfl, rfl⟩
    | false => exact ⟨none, rest, .inr ⟨rfl, stripPrefix_cons_eq_none (h rfl), rfl⟩, rfl, rfl⟩

theorem reads_close {output : Output} :
    Reads (Grammar.close output) s u rest ↔ s = output.closing ++ rest :=
  reads_token

/-! ## Names -/

/-- A tag ends here: after blanks and perhaps a marker there are two closing braces. -/
def closesTag (s : List Char) : Bool :=
  let rest := skipBlanks s
  (stripPrefix ['}', '}'] ((stripPrefix ['~'] rest).getD rest)).isSome

theorem closesElse_eq_true :
    closesElse s = true ↔ ∃ t, s = elseWord ++ t ∧ closesTag t = true := by
  unfold closesElse
  split
  · rename_i h
    simp only [Bool.false_eq_true, false_iff, not_exists, not_and]
    rintro t rfl
    rw [stripPrefix_append] at h
    cases h
  · rename_i t h
    obtain rfl := stripPrefix_eq_some.1 h
    simp only [List.append_cancel_left_eq, exists_eq_left']
    rfl

theorem closesTag_closing {b : List Char} (hb : Blanks b) (r : Bool) (output : Output) :
    closesTag (b ++ (mark r ++ (output.closing ++ s))) = true := by
  unfold closesTag
  rw [skipBlanks_append hb]
  cases r <;> cases output <;> rfl

/-- A class of characters that names are made of: the keyword `else` is in it, and nothing that
may end a tag. -/
structure WordClass (p : Char → Bool) : Prop where
  keyword : ∀ c ∈ elseWord, p c = true
  blank : NotBlank p
  tilde : p '~' = false
  brace : p '}' = false

theorem notBlank_isNameChar : NotBlank isNameChar := notBlank_of_all (by decide)

theorem notBlank_isPartialNameChar : NotBlank isPartialNameChar := notBlank_of_all (by decide)

theorem wordClass_isNameChar : WordClass isNameChar where
  keyword := List.all_eq_true.1 (by decide)
  blank := notBlank_isNameChar
  tilde := by decide
  brace := by decide

theorem wordClass_isPartialNameChar : WordClass isPartialNameChar where
  keyword := List.all_eq_true.1 (by decide)
  blank := notBlank_isPartialNameChar
  tilde := by decide
  brace := by decide

variable {p : Char → Bool}

theorem WordClass.headIs_of_closesTag (hp : WordClass p) (h : closesTag s = true) :
    headIs p s = false := by
  cases s with
  | nil => rfl
  | cons c s =>
    by_cases hb : isBlank c = true
    · exact hp.blank c hb
    · simp only [Bool.not_eq_true] at hb
      by_cases ht : c = '~'
      · exact ht ▸ hp.tilde
      · by_cases hc : c = '}'
        · exact hc ▸ hp.brace
        · unfold closesTag at h
          rw [skipBlanks_of_not_head (s := c :: s) hb] at h
          simp [stripPrefix, Ne.symm ht, Ne.symm hc] at h

/-- Before a run of name characters only the keyword itself can close an `else` tag. -/
theorem WordClass.closesElse_run (hp : WordClass p) (hw : ∀ c ∈ w, p c = true)
    (hr : headIs p rest = false) :
    closesElse (w ++ rest) = true ↔ w = elseWord ∧ closesTag rest = true := by
  rw [closesElse_eq_true]
  constructor
  · rintro ⟨t, ht, hc⟩
    have hw' := run_unique.2 ⟨hw, hr, rfl⟩
    have he := run_unique.2 ⟨hp.keyword, hp.headIs_of_closesTag hc, ht⟩
    exact ⟨hw'.1.trans he.1.symm, (hw'.2.trans he.2.symm) ▸ hc⟩
  · rintro ⟨rfl, hc⟩
    exact ⟨rest, rfl, hc⟩

def IsWord (p : Char → Bool) (name : String) : Prop :=
  name.toList ≠ [] ∧ ∀ c ∈ name.toList, p c = true

instance (p : Char → Bool) (name : String) : Decidable (IsWord p name) :=
  @instDecidableAnd (name.toList ≠ []) (∀ c ∈ name.toList, p c = true) _
    (List.decidableBAll (p · = true) name.toList)

abbrev IsName (name : String) : Prop := IsWord isNameChar name

theorem IsWord.headIs {name : String} (h : IsWord p name) {q : Char → Bool}
    (hq : ∀ c, p c = true → q c = false) : headIs q (name.toList ++ s) = false := by
  obtain ⟨hne, hw⟩ := h
  rw [headIs_append hne]
  cases hn : name.toList with
  | nil => rfl
  | cons c cs => exact hq c (hw c (by simp [hn]))

theorem IsWord.headIs_mono {name : String} (h : IsWord p name) {q : Char → Bool}
    (hq : ∀ {c}, p c = true → q c = true) :
    BraceTemplate.headIs q (name.toList ++ s) = true := by
  obtain ⟨hne, hw⟩ := h
  rw [headIs_append hne]
  cases hn : name.toList with
  | nil => exact (hne hn).elim
  | cons c cs => exact hq (hw c (by simp [hn]))

theorem IsWord.headIs_blank {p : Char → Bool} {name : String} (hp : NotBlank p)
    (hn : IsWord p name) : BraceTemplate.headIs isBlank (name.toList ++ s) = false := by
  refine hn.headIs fun c hc => Bool.eq_false_iff.2 fun hb => ?_
  rw [hp c hb] at hc
  cases hc

theorem toList_else : "else".toList = elseWord := rfl

theorem eq_else_iff {name : String} : name.toList = elseWord ↔ name = "else" := by
  rw [← toList_else, String.toList_inj]

theorem WordClass.reads_word (hp : WordClass p) {label : Label} {name : String} :
    Reads (.expect label do
      Rule.refuse closesElse
      return String.ofList (← Grammar.run1 p)) s name rest ↔
      IsWord p name ∧ headIs p rest = false ∧ ¬ (name = "else" ∧ closesTag rest = true) ∧
        s = name.toList ++ rest := by
  simp only [reads_expect, reads_bind, reads_refuse, reads_run1, reads_pure]
  constructor
  · rintro ⟨-, mid, ⟨hc, rfl⟩, w, mid', ⟨hne, hw, hr, rfl⟩, rfl, rfl⟩
    rw [← Bool.not_eq_true, hp.closesElse_run hw hr] at hc
    simp only [IsWord, String.toList_ofList, ← eq_else_iff]
    exact ⟨⟨hne, hw⟩, hr, hc, trivial⟩
  · rintro ⟨⟨hne, hw⟩, hr, hc, rfl⟩
    rw [← eq_else_iff, ← hp.closesElse_run hw hr, Bool.not_eq_true] at hc
    exact ⟨(), _, ⟨hc, rfl⟩, _, rest, ⟨hne, hw, hr, rfl⟩, String.ofList_toList.symm, rfl⟩

theorem refuses_word {label : Label} :
    Refuses (.expect label do
      Rule.refuse closesElse
      return String.ofList (← Grammar.run1 p)) s ↔ closesElse s = true ∨ headIs p s = false := by
  simp only [refuses_expect, refuses_bind, refuses_refuse, refuses_run1, reads_refuse,
    not_refuses_pure, and_false, exists_false, or_false]
  constructor
  · rintro (h | ⟨-, mid, ⟨-, rfl⟩, h⟩)
    · exact .inl h
    · exact .inr h
  · intro h
    by_cases hc : closesElse s = true
    · exact .inl hc
    · exact .inr ⟨(), s, ⟨by simpa using hc, rfl⟩, h.resolve_left hc⟩

theorem reads_identifier {name : String} :
    Reads Grammar.identifier s name rest ↔
      IsName name ∧ headIs isNameChar rest = false ∧
        ¬ (name = "else" ∧ closesTag rest = true) ∧ s = name.toList ++ rest :=
  wordClass_isNameChar.reads_word

theorem refuses_identifier :
    Refuses Grammar.identifier s ↔ closesElse s = true ∨ headIs isNameChar s = false :=
  refuses_word

theorem reads_partialName {name : String} :
    Reads Grammar.partialName s name rest ↔
      IsWord isPartialNameChar name ∧ headIs isPartialNameChar rest = false ∧
        ¬ (name = "else" ∧ closesTag rest = true) ∧ s = name.toList ++ rest :=
  wordClass_isPartialNameChar.reads_word

theorem reads_name {name : String} (hn : IsName name) (hr : headIs isNameChar rest = false)
    (he : name = "else" → closesTag rest = false) :
    Reads Grammar.identifier (name.toList ++ rest) name rest := by
  refine reads_identifier.2 ⟨hn, hr, ?_, rfl⟩
  rintro ⟨hname, hc⟩
  rw [he hname] at hc
  cases hc

/-! ## Paths -/

/-- The names after the first of a path, each behind a dot. -/
def dotted (names : List String) : List Char := names.flatMap fun n => '.' :: n.toList

def IsPath (path : String) : Prop :=
  ∃ head others, IsName head ∧ (∀ n ∈ others, IsName n) ∧ path = ".".intercalate (head :: others)

theorem toList_path (head : String) (others : List String) :
    (".".intercalate (head :: others)).toList = head.toList ++ dotted others := by
  induction others generalizing head with
  | nil => simp [dotted]
  | cons n others ih =>
    rw [String.intercalate_cons_cons, String.toList_append, String.toList_append, ih]
    simp [dotted]

theorem path_eq_else {head : String} {others : List String} :
    ".".intercalate (head :: others) = "else" ↔ head = "else" ∧ others = [] := by
  constructor
  · intro h
    cases others with
    | nil => exact ⟨by simpa using h, rfl⟩
    | cons n others =>
      have hdot : '.' ∈ (".".intercalate (head :: n :: others)).toList := by
        rw [toList_path]
        simp [dotted]
      rw [h] at hdot
      exact absurd hdot (by decide)
  · rintro ⟨rfl, rfl⟩
    exact String.intercalate_singleton

theorem reads_segment {name : String} :
    Reads Grammar.segment s name rest ↔
      IsName name ∧ headIs isNameChar rest = false ∧ s = name.toList ++ rest := by
  unfold Grammar.segment
  simp only [reads_orElse, reads_identifier, refuses_identifier, reads_bind, reads_literal,
    reads_pure]
  constructor
  · rintro (⟨hn, hr, -, rfl⟩ | ⟨h, -, mid, rfl, rfl, rfl⟩)
    · exact ⟨hn, hr, rfl⟩
    · have hc : closesElse (elseWord ++ rest) = true := h.resolve_right (by simp [elseWord]; decide)
      obtain ⟨t, ht, hc⟩ := closesElse_eq_true.1 hc
      obtain rfl := List.append_cancel_left ht
      refine ⟨⟨by decide, ?_⟩, wordClass_isNameChar.headIs_of_closesTag hc, rfl⟩
      simpa using wordClass_isNameChar.keyword
  · rintro ⟨hn, hr, rfl⟩
    by_cases h : name = "else" ∧ closesTag rest = true
    · obtain ⟨rfl, hc⟩ := h
      exact .inr ⟨.inl (closesElse_eq_true.2 ⟨rest, rfl, hc⟩), (), rest, rfl, rfl, rfl⟩
    · exact .inl ⟨hn, hr, h, rfl⟩

/-- What a path may not run into: another character of a name, or a dot. -/
def isPathChar (c : Char) : Bool := isNameChar c || c = '.'

theorem headIs_isNameChar (h : headIs isPathChar s = false) : headIs isNameChar s = false := by
  cases s with
  | nil => rfl
  | cons c s =>
    simp only [headIs_cons, isPathChar, Bool.or_eq_false_iff] at h
    exact h.1

theorem reads_dotted {names : List String} (hn : ∀ n ∈ names, IsName n)
    (hr : headIs isPathChar rest = false) :
    Reads (Rule.many do Grammar.literal ['.']; Grammar.segment) (dotted names ++ rest) names
      rest := by
  induction names with
  | nil =>
    refine Refuses.many (Refuses.bind (refuses_literal.2 (stripPrefix_cons_eq_none ?_)))
    cases rest with
    | nil => rfl
    | cons c rest =>
      simp only [headIs_cons, isPathChar, Bool.or_eq_false_iff] at hr
      exact hr.2
  | cons n names ih =>
    have hh : headIs isNameChar (dotted names ++ rest) = false := by
      cases names with
      | nil => exact headIs_isNameChar hr
      | cons m names => simp only [dotted, List.flatMap_cons, List.cons_append, headIs_cons]; decide
    refine Reads.many (m := dotted names ++ rest) ?_ ?_ (ih fun m hm => hn m (by simp [hm]))
    · refine Reads.bind (a := ()) (m := n.toList ++ (dotted names ++ rest))
        (reads_literal.2 ?_) (reads_segment.2 ⟨hn n (by simp), hh, rfl⟩)
      simp [dotted]
    · simp only [dotted, List.flatMap_cons, List.cons_append, List.length_cons, List.length_append]
      omega

theorem names_of_reads_dotted {names : List String}
    (h : Reads (Rule.many do Grammar.literal ['.']; Grammar.segment) s names rest) :
    (∀ n ∈ names, IsName n) ∧ s = dotted names ++ rest := by
  induction names generalizing s with
  | nil =>
    obtain ⟨-, rfl⟩ := reads_many_nil.1 h
    exact ⟨by simp, rfl⟩
  | cons n names ih =>
    obtain ⟨mid, h1, -, h2⟩ := reads_many_cons.1 h
    simp only [reads_bind, reads_literal, reads_segment] at h1
    obtain ⟨-, mid', rfl, hn, -, rfl⟩ := h1
    obtain ⟨hns, rfl⟩ := ih h2
    exact ⟨by simpa using ⟨hn, hns⟩, by simp [dotted]⟩

theorem isPath_of_reads {path : String} (h : Reads Grammar.path s path rest) :
    IsPath path ∧ ¬ (path = "else" ∧ closesTag rest = true) ∧ s = path.toList ++ rest := by
  unfold Grammar.path at h
  simp only [reads_bind, reads_identifier, reads_pure] at h
  obtain ⟨head, mid, ⟨hh, -, hc, rfl⟩, others, mid', ho, rfl, rfl⟩ := h
  obtain ⟨hos, rfl⟩ := names_of_reads_dotted ho
  refine ⟨⟨head, others, hh, hos, rfl⟩, ?_, by rw [toList_path, List.append_assoc]⟩
  rintro ⟨he, hr⟩
  obtain ⟨rfl, rfl⟩ := path_eq_else.1 he
  exact hc ⟨rfl, hr⟩

theorem reads_path {path : String} (hp : IsPath path) (hr : headIs isPathChar rest = false)
    (hc : ¬ (path = "else" ∧ closesTag rest = true)) :
    Reads Grammar.path (path.toList ++ rest) path rest := by
  obtain ⟨head, others, hh, hos, rfl⟩ := hp
  rw [toList_path, List.append_assoc]
  refine Reads.bind (reads_identifier.2 ⟨hh, ?_, ?_, rfl⟩)
    (Reads.bind (reads_dotted hos hr) (reads_pure.2 ⟨rfl, rfl⟩))
  · cases others with
    | nil => exact headIs_isNameChar hr
    | cons m names => simp only [dotted, List.flatMap_cons, List.cons_append, headIs_cons]; decide
  · rintro ⟨rfl, ht⟩
    cases others with
    | nil => exact hc ⟨String.intercalate_singleton, ht⟩
    | cons m names => simp [dotted, closesTag, skipBlanks, isBlank, stripPrefix] at ht

theorem notBlank_isPathChar : NotBlank isPathChar := notBlank_of_all (by decide)

/-! ## Quoted texts -/

theorem reads_quotedBy {q : Char} {text : String} :
    Reads (Grammar.quotedBy q) s text rest ↔
      q ∉ text.toList ∧ s = q :: (text.toList ++ q :: rest) := by
  unfold Grammar.quotedBy
  simp only [reads_bind, reads_literal, reads_run, reads_expect, reads_pure]
  constructor
  · rintro ⟨-, mid, rfl, cs, mid', ⟨hcs, -, rfl⟩, -, mid'', rfl, rfl, rfl⟩
    refine ⟨fun hq => ?_, by simp⟩
    simpa using hcs q (by simpa using hq)
  · rintro ⟨hq, rfl⟩
    refine ⟨(), _, rfl, text.toList, q :: rest, ⟨fun c hc => ?_, by simp, rfl⟩, (), rest, rfl,
      String.ofList_toList.symm, rfl⟩
    simpa using fun h : c = q => hq (h ▸ hc)

theorem refuses_quotedBy {q : Char} (h : headIs (· = q) s = false) :
    Refuses (Grammar.quotedBy q) s :=
  Refuses.bind (refuses_literal.2 (stripPrefix_cons_eq_none h))

def isQuote (q : Char) : Prop := q = '\x27' ∨ q = '\x22'

theorem reads_quoted {text : String} :
    Reads Grammar.quoted s text rest ↔
      ∃ q, isQuote q ∧ q ∉ text.toList ∧ s = q :: (text.toList ++ q :: rest) := by
  unfold Grammar.quoted
  simp only [reads_orElse, reads_quotedBy]
  constructor
  · rintro (⟨hq, rfl⟩ | ⟨-, hq, rfl⟩)
    · exact ⟨_, .inl rfl, hq, rfl⟩
    · exact ⟨_, .inr rfl, hq, rfl⟩
  · rintro ⟨q, rfl | rfl, hq, rfl⟩
    · exact .inl ⟨hq, rfl⟩
    · exact .inr ⟨refuses_quotedBy (by simp), hq, rfl⟩

end BraceTemplate
