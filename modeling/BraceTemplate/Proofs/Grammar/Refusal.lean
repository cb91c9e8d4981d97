import BraceTemplate.Proofs.Grammar.ErrorPlace
import BraceTemplate.Proofs.Grammar.TagMisses
import Mathlib

/-!
# Why a block is refused

Of the rules for a node only those for blocks come further than the sign behind the opening braces.
Where no block is read, each of the other rules has stopped at that sign, and what the rule for
blocks has missed furthest is the one token that the error names (`Stops`).
-/

namespace BraceTemplate

open Rule

namespace Rule

variable {α β : Type} {p : Rule α} {f : α → Rule β} {s mid : List Char} {a : α}
variable {last m : Miss} {label : Label} {ms : List Miss}

/-! ## Rules that stop -/

/-- The rule does not match, and of what it missed on the way `last` is furthest, alone. -/
structure Stops (p : Rule α) (s : List Char) (last : Miss) : Prop where
  refuses : Refuses p s
  latest : last.Latest (p s).misses

theorem Stops.of_eq {q : Rule α} {s' : List Char} (heq : p s = q s') (h : Stops q s' last) :
    Stops p s last :=
  ⟨(congrArg Reply.outcome heq).trans h.refuses, by rw [heq]; exact h.latest⟩

theorem Silent.stops (hp : p.Silent) (h : Refuses p s) :
    Stops (expect label p) s ⟨s.length, label⟩ := by
  have heq : expect label p s = ⟨.mismatch, [⟨s.length, label⟩]⟩ := hp.expect_of_refuses h
  exact ⟨refuses_expect.2 h, by simp [heq], fun m hm => .inl (by simpa [heq] using hm)⟩

theorem Stops.bind (h : Stops p s last) : Stops (p >>= f) s last := by
  have hreply : p s = ⟨.mismatch, (p s).misses⟩ := congr (congrArg Reply.mk h.refuses) rfl
  exact ⟨h.refuses.bind, by rw [bind_of_mismatch hreply]; exact h.latest⟩

/-- Before the part of a sequence that stops, another one is read. -/
theorem Stops.after (hp : Reads p s a mid) (hms : ∀ m ∈ (p s).misses, last.left < m.left)
    (h : Stops (f a) mid last) : Stops (p >>= f) s last := by
  refine ⟨hp.bind_refuses h.refuses, mem_misses_bind.2 (.inr ⟨a, mid, hp, h.latest.mem⟩), ?_⟩
  intro m hm
  rcases mem_misses_bind.1 hm with hm | ⟨a', mid', hp', hm⟩
  · exact .inr (hms m hm)
  · obtain ⟨rfl, rfl⟩ := hp.functional hp'
    exact h.latest.before m hm

end Rule

variable {rInner : Rule (List Param)} {rBody : Rule Block} {s rest : List Char} {l : Bool}
variable {name : String} {last m : Miss}

/-! ## Rules that stop at the sign of a tag -/

def IsSign (c : Char) : Prop := c = '#' ∨ c = '/'

section
variable {c : Char} (hc : IsSign c)
include hc

theorem identifier_sign :
    Grammar.identifier (c :: s) = ⟨.mismatch, [⟨(c :: s).length, .identifier⟩]⟩ := by
  refine silent_word.expect_of_refuses (refuses_expect.1 (refuses_identifier.2 (.inr ?_)))
  rcases hc with rfl | rfl <;> rfl

theorem path_sign : Grammar.path (c :: s) = ⟨.mismatch, [⟨(c :: s).length, .identifier⟩]⟩ :=
  bind_of_mismatch (identifier_sign hc)

theorem left_of_mem_misses_sign {α β : Type} {p : Rule α} {f : α → Rule β} {label : Label}
    (hp : p (c :: s) = ⟨.mismatch, [⟨(c :: s).length, label⟩]⟩)
    (hm : m ∈ ((do Grammar.blanks; let a ← p; f a) (c :: s)).misses) :
    m.left = (c :: s).length := by
  have hblanks : Reads Grammar.blanks (c :: s) () (c :: s) := by
    refine reads_blanks.2 ⟨[], nofun, ?_, rfl⟩
    rcases hc with rfl | rfl <;> rfl
  rw [silent_blanks.mem_misses_bind hblanks, bind_of_mismatch hp, List.mem_singleton] at hm
  rw [hm]

/-- The rules for text and for inline tags stop at the sign. -/
theorem left_of_mem_misses_inline
    (hm : m ∈ (firstOf (inlineRules rInner ++ [Grammar.partialTag rInner])
      (Output.escaped.opening ++ (mark l ++ ([c] ++ s)))).misses) : m.left = ([c] ++ s).length := by
  have hother : ∀ d, d ≠ '#' → d ≠ '/' → headIs (· = d) (c :: s) = false := by
    intro d h1 h2
    rcases hc with rfl | rfl
    · exact decide_eq_false h1.symm
    · exact decide_eq_false h2.symm
  have ht := hother '~' (by decide) (by decide)
  have hraw : Refuses (Grammar.literal Output.raw.opening)
      (Output.escaped.opening ++ (mark l ++ (c :: s))) :=
    refuses_literal.2 (stripPrefix_raw (hother '{' (by decide) (by decide)))
  have hpartial : Refuses (Grammar.token ['>']) (c :: s) :=
    refuses_token.2 (stripPrefix_cons_eq_none (hother '>' (by decide) (by decide)))
  obtain ⟨q, hq, hm⟩ := exists_of_mem_misses_firstOf hm
  simp only [inlineRules, List.cons_append, List.nil_append, List.mem_cons, List.not_mem_nil,
    or_false] at hq
  rcases hq with rfl | rfl | rfl | rfl | rfl | rfl
  · exact (silent_content.not_mem hm).elim
  · exact left_of_mem_misses_sign hc (path_sign hc) ((mem_misses_tagHead ht).1 hm)
  · exact ((silent_literal _).not_mem_bind hraw hm).elim
  · exact left_of_mem_misses_sign hc (identifier_sign hc) ((mem_misses_tagHead ht).1 hm)
  · exact ((silent_literal _).not_mem_bind hraw hm).elim
  · exact left_of_refuses_token hpartial ((mem_misses_tagHead ht).1 hm)

end

/-- Where a slash stands behind the braces, no rule for a node comes further. -/
theorem left_of_mem_misses_slash
    (hm : m ∈ (Grammar.node rInner rBody
      (Output.escaped.opening ++ (mark l ++ (['/'] ++ s)))).misses) :
    m.left = (['/'] ++ s).length := by
  rw [node_eq_append] at hm
  rcases (mem_misses_firstOf_append _ _).1 hm with hm | ⟨-, hm⟩
  · exact left_of_mem_misses_inline (.inr rfl) hm
  · obtain ⟨q, hq, hm⟩ := exists_of_mem_misses_firstOf hm
    simp only [List.mem_cons, List.not_mem_nil, or_false] at hq
    rcases hq with rfl | rfl
    · exact left_of_mem_misses_hash rfl rfl (.inl hm)
    · exact left_of_mem_misses_hash rfl rfl (.inr hm)

/-! ## Heads of blocks without parameters -/

/-- Where neither a marker nor a closing brace stands, the end of a tag is missed. -/
theorem stops_close {α : Type} {f : Bool → Rule α} {output : Output}
    (h : headIs isTagEnd s = false) :
    Stops (do let right ← Grammar.tilde; Grammar.close output; f right) s
      ⟨s.length, .token output.closing⟩ := by
  have htilde : Grammar.tilde s = ⟨.ok false s, []⟩ :=
    silent_tilde.eq_of_reads (reads_tilde.2 ⟨rfl, fun _ => headIs_eq_of_tagEnd h rfl⟩)
  have hclose : Refuses (Grammar.literal output.closing) s := by
    refine refuses_literal.2 ?_
    cases output <;> exact stripPrefix_cons_eq_none (headIs_eq_of_tagEnd h rfl)
  exact .of_eq (bind_of_ok htilde) ((silent_literal _).stops hclose).bind

/-- Behind a name there are no parameters: no blank follows, or the names of a binder do. -/
def WithoutParams (rest : List Char) : Prop :=
  headIs isBlank rest = false ∨ introducesNames (skipBlanks rest) = true

theorem space_of_mismatch {α : Type} {q : Rule α}
    (h : headIs isBlank s = false ∨ q (skipBlanks s) = ⟨.mismatch, []⟩) :
    (do Grammar.space; q) s = ⟨.mismatch, []⟩ := by
  rcases hs : headIs isBlank s with _ | _
  · exact bind_of_mismatch (silent_space.eq_of_refuses (refuses_space.2 hs))
  · have hq := h.resolve_left (by simp [hs])
    rw [bind_of_ok (silent_space.eq_of_reads (reads_space_skipBlanks hs)), hq]

theorem parameters_of_introducesNames (h : introducesNames s = true) :
    Grammar.parameters rInner s = ⟨.mismatch, []⟩ := by
  have hrefuse : Rule.refuse introducesNames s = ⟨.mismatch, []⟩ :=
    Silent.eq_of_refuses (fun _ => rfl) (refuses_refuse.2 h)
  have hparam : Grammar.parameter rInner s = ⟨.mismatch, []⟩ := bind_of_mismatch hrefuse
  exact bind_of_mismatch hparam

section
variable (hn : IsName name) (hname : headIs isNameChar rest = false)
variable (helse : name = "else" → closesTag rest = false) (hnone : WithoutParams rest)
include hn hname helse

/-- The head of a block is read up to its name without a miss. -/
theorem openName_eq {α : Type} {f : Bool → String → Rule α} :
    (do Grammar.literal Output.escaped.opening; let left ← Grammar.tilde; Grammar.token ['#']
        let name ← Grammar.identifier; f left name)
      (Output.escaped.opening ++ (mark l ++ (['#'] ++ (name.toList ++ rest)))) =
      f l name rest := by
  have hword : Grammar.identifier (name.toList ++ rest) = ⟨.ok name rest, []⟩ :=
    silent_word.expect_of_reads (reads_expect.1 (reads_name hn hname helse))
  rw [tagHead_eq rfl, bind_of_ok (token_append _ _), bind_of_ok hword]

include hnone

/-- Where there are no parameters, a rule for blocks goes on with the end of the tag. -/
theorem blockTag_eq : ∃ f : Bool → Block → Option (Trim × Block) → Trim → Node,
    Grammar.blockTag rInner rBody
        (Output.escaped.opening ++ (mark l ++ (['#'] ++ (name.toList ++ rest)))) =
      (do
        Grammar.blanks
        let right ← Grammar.tilde
        Grammar.close .escaped
        blockTail rBody (Rule.optional (Grammar.markedElse rBody)) name (f right)) rest := by
  have hspace : (do Grammar.space; Grammar.parameters rInner) rest = ⟨.mismatch, []⟩ :=
    space_of_mismatch (hnone.imp_right parameters_of_introducesNames)
  have hparams : Grammar.parametersAfter Grammar.space rInner rest = ⟨.ok [] rest, []⟩ :=
    bind_of_ok (optional_of_mismatch hspace)
  unfold Grammar.blockTag
  rw [openName_eq hn hname helse, bind_of_ok hparams]
  exact ⟨_, rfl⟩

/-- A rule for binders misses nothing where there are no parameters. -/
theorem binderTag_eq : Grammar.binderTag rInner rBody
    (Output.escaped.opening ++ (mark l ++ (['#'] ++ (name.toList ++ rest)))) = ⟨.mismatch, []⟩ := by
  unfold Grammar.binderTag
  rw [openName_eq hn hname helse]
  refine space_of_mismatch (hnone.imp_right fun h => ?_)
  exact bind_of_mismatch (parameters_of_introducesNames h)

end

/-! ## Blocks that are refused -/

/-- Where the rule for blocks stops, and the one for binders misses nothing, no node is read. -/
theorem Rule.Stops.node (hblock : Stops (Grammar.blockTag rInner rBody)
      (Output.escaped.opening ++ (mark l ++ (['#'] ++ s))) last)
    (hbinder : Grammar.binderTag rInner rBody
      (Output.escaped.opening ++ (mark l ++ (['#'] ++ s))) = ⟨.mismatch, []⟩)
    (hlast : last.left < (['#'] ++ s).length) :
    Stops (Grammar.node rInner rBody)
      (Output.escaped.opening ++ (mark l ++ (['#'] ++ s))) last := by
  have hrefuses : Refuses (Grammar.binderTag rInner rBody) _ := congrArg Reply.outcome hbinder
  rw [node_eq_append]
  refine ⟨?_, ?_, fun m hm => ?_⟩
  · refine refuses_firstOf.2 (List.forall_mem_append.2 ⟨refuses_inline_hash, ?_⟩)
    simp only [List.mem_cons, List.not_mem_nil, or_false, forall_eq_or_imp, forall_eq]
    exact ⟨hblock.refuses, hrefuses⟩
  · exact (mem_misses_firstOf_append _ _).2
      (.inr ⟨refuses_inline_hash, mem_misses_orElse.2 (.inl hblock.latest.mem)⟩)
  · rcases (mem_misses_firstOf_append _ _).1 hm with hm | ⟨-, hm⟩
    · have hleft := left_of_mem_misses_inline (.inl rfl) hm
      exact .inr (hleft ▸ hlast)
    · obtain ⟨q, hq, hm⟩ := exists_of_mem_misses_firstOf hm
      simp only [List.mem_cons, List.not_mem_nil, or_false] at hq
      rcases hq with rfl | rfl
      · exact hblock.latest.before m hm
      · rw [hbinder] at hm
        cases hm

/-- A text that starts with no node has the error of the token that was missed furthest. -/
theorem parseChars_of_stops {limit : Nat} {pre post : List Char} {label : Label} (hne : pre ≠ [])
    (h : Stops (Grammar.node (Grammar.innerParams limit) (Grammar.blockBody limit)) (pre ++ post)
      ⟨post.length, label⟩) :
    parseChars limit (pre ++ post) = .error (.unexpected (.after pre) [label.text]) := by
  have hlength := List.length_pos_iff.2 hne
  have hreads : Reads (Grammar.items limit) (pre ++ post) [] (pre ++ post) := h.refuses.many
  have hmisses : furthest limit (pre ++ post) = ⟨pre.length, [label]⟩ := by
    have hitems := many_of_refuses h.refuses
    rw [furthest, Grammar.items, hitems, Furthest.ofMisses_of_latest h.latest]
    · simp
    · simp only [List.length_append]
      omega
  rw [parseChars_of_stopped hreads (by simp [hne]), hmisses]
  simp

end BraceTemplate
