import BraceTemplate.Grammar.Label

/-!
# Rules of an ordered-choice grammar

A rule reads a prefix of the text before it. It answers with an outcome and with the misses it
recorded on the way; the misses are a log and never influence an outcome. A rule that does not
match has read nothing, so the next alternative starts at the same place. A rule that would nest
too deep ends the whole reading.
-/

namespace BraceTemplate

/-- What became of a rule. -/
inductive Outcome (α : Type) where
  /-- It read a value, and `rest` is the text after it. -/
  | ok (value : α) (rest : List Char)
  /-- It does not match here. -/
  | mismatch
  /-- It opens more levels than allowed, with `left` characters to come. -/
  | tooDeep (left : Nat)
  deriving Repr

structure Reply (α : Type) where
  outcome : Outcome α
  misses : List Miss
  deriving Repr

/-- A rule, as a function of the text before it. -/
def Rule (α : Type) : Type := List Char → Reply α

namespace Rule

variable {α β : Type}

def succeed (a : α) : Rule α := fun s => ⟨.ok a s, []⟩

def fail : Rule α := fun _ => ⟨.mismatch, []⟩

def tooDeep : Rule α := fun s => ⟨.tooDeep s.length, []⟩

/-- Reads `p`, then the rule that its value selects. -/
def andThen (p : Rule α) (f : α → Rule β) : Rule β := fun s =>
  match p s with
  | ⟨.ok a rest, ms⟩ =>
    let q := f a rest
    ⟨q.outcome, ms ++ q.misses⟩
  | ⟨.mismatch, ms⟩ => ⟨.mismatch, ms⟩
  | ⟨.tooDeep left, ms⟩ => ⟨.tooDeep left, ms⟩

/-- A sequence matches iff both parts do, the second one where the first one stops. -/
theorem andThen_eq_ok_iff {p : Rule α} {f : α → Rule β} {s rest : List Char} {b : β} :
    (p.andThen f s).outcome = .ok b rest ↔
      ∃ a mid, (p s).outcome = .ok a mid ∧ (f a mid).outcome = .ok b rest := by
  unfold andThen
  split
  · rename_i a mid ms h
    constructor
    · exact fun hf => ⟨a, mid, by rw [h], hf⟩
    · rintro ⟨a', mid', hp, hf⟩
      rw [h] at hp
      cases hp
      exact hf
  · simp_all
  · simp_all

instance : Monad Rule where
  pure := succeed
  bind := andThen

/-- Reads `p`, or `q` where `p` does not match. -/
def orElse (p q : Rule α) : Rule α := fun s =>
  match p s with
  | ⟨.mismatch, ms⟩ =>
    let r := q s
    ⟨r.outcome, ms ++ r.misses⟩
  | r => r

def firstOf : List (Rule α) → Rule α
  | [] => fail
  | p :: rest => p.orElse (firstOf rest)

/-- Reads `p` where it matches, and nothing elsewhere. -/
def optional (p : Rule α) : Rule (Option α) :=
  orElse (p.andThen fun a => succeed (some a)) (succeed none)

/-- Reads `p` as often as it matches. A match of nothing would repeat without end, and makes the
whole repetition a mismatch. -/
def many (p : Rule α) : Rule (List α) := fun s =>
  match p s with
  | ⟨.ok a rest, ms⟩ =>
    if rest.length < s.length then
      match many p rest with
      | ⟨.ok as rest', ms'⟩ => ⟨.ok (a :: as) rest', ms ++ ms'⟩
      | ⟨.mismatch, ms'⟩ => ⟨.mismatch, ms ++ ms'⟩
      | ⟨.tooDeep left, ms'⟩ => ⟨.tooDeep left, ms ++ ms'⟩
    else ⟨.mismatch, ms⟩
  | ⟨.mismatch, ms⟩ => ⟨.ok [] s, ms⟩
  | ⟨.tooDeep left, ms⟩ => ⟨.tooDeep left, ms⟩
termination_by s => s.length

/-- Reads `p` as often as it matches, and at least once. -/
def many1 (p : Rule α) : Rule (List α) := do
  let first ← p
  let others ← many p
  return first :: others

/-- Reads `p` once or more, with `separator` in between. -/
def separated (separator : Rule Unit) (p : Rule α) : Rule (List α) := do
  let first ← p
  let others ← many (do separator; p)
  return first :: others

/-- Reads `p`, and records a miss of `label` where it does not match. -/
def expect (label : Label) (p : Rule α) : Rule α := fun s =>
  match p s with
  | ⟨.mismatch, ms⟩ => ⟨.mismatch, ms ++ [⟨s.length, label⟩]⟩
  | r => r

/-- Reads nothing, and matches where `ahead` does not hold of the text to come. -/
def refuse (ahead : List Char → Bool) : Rule Unit := fun s =>
  ⟨if ahead s then .mismatch else .ok () s, []⟩

end Rule
end BraceTemplate
