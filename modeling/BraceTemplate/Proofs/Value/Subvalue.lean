import BraceTemplate.Proofs.Value.Path
import Mathlib.Logic.ExistsUnique

/-!
# Parts of values

A part of a value is reached by steps, keys into maps and indices into lists (`Value.subvalue?`).
A path does not say which of its segments are which: a segment is a key where it meets a map and an
index where it meets a list, and `this` is no step at all (`Value.Reads`, `Value.Names`). What a
path finds is the part that the steps named by its segments lead to, and each part that has a path
is found by it (`lookup_reaches`).
-/

namespace BraceTemplate

/-! ## Steps -/

/-- One step from a value to a part of it. -/
inductive Step where
  | key (key : String)
  | index (i : Nat)
  deriving DecidableEq, Repr

namespace Step

/-- The step as a segment of a path. -/
def segment : Step → String
  | key k => k
  | index i => Nat.repr i

def path (steps : List Step) : String := ".".intercalate (steps.map segment)

/-- A step that has a segment of its own: a dot ends a segment, the segment `this` is no key, and
indices have 64 bits. -/
def Nameable : Step → Prop
  | key k => '.' ∉ k.toList ∧ k ≠ "this"
  | index i => i < Nat.pow 2 64

instance : DecidablePred Nameable
  | key k => inferInstanceAs (Decidable ('.' ∉ k.toList ∧ k ≠ "this"))
  | index i => inferInstanceAs (Decidable (i < Nat.pow 2 64))

end Step

namespace Value

def child? : Value → Step → Option Value
  | map entries, .key k => Table.get? entries k
  | list items, .index i => items[i]?
  | _, _ => none

/-- The part that a list of steps leads to, one after the other. -/
def subvalue? (v : Value) : List Step → Option Value
  | [] => some v
  | step :: rest => (v.child? step).bind (subvalue? · rest)

end Value

/-! ## What segments name -/

/-- The segment is a numeral for the index: ASCII digits, perhaps behind a plus sign, of a number
below `2 ^ 64`. -/
def IsIndex (segment : String) (i : Nat) : Prop :=
  ∃ digits, (segment.toList = digits ∨ segment.toList = '+' :: digits) ∧ digits ≠ [] ∧
    (∀ c ∈ digits, c.isDigit) ∧ Nat.ofDigitChars 10 digits 0 = i ∧ i < Nat.pow 2 64

namespace Value

/-- The step that a segment other than `this` names where it meets a value. -/
inductive Reads : Value → String → Step → Prop
  | key {entries : List (String × Value)} {k : String} : Reads (map entries) k (.key k)
  | index {items : List Value} {segment : String} {i : Nat} :
      IsIndex segment i → Reads (list items) segment (.index i)

/-- The steps that segments other than `this` name, each where it meets the part that the ones
before it lead to. -/
inductive Names : Value → List String → List Step → Prop
  | nil {v : Value} : Names v [] []
  | cons {v w : Value} {segment : String} {segments : List String} {step : Step}
      {steps : List Step} : v.Reads segment step → v.child? step = some w →
      w.Names segments steps → Names v (segment :: segments) (step :: steps)

end Value

/-! ## Indices -/

theorem readNatural_eq_some_iff {cs : List Char} {n : Nat} :
    readNatural cs = some n ↔ ∃ digits, (cs = digits ∨ cs = '+' :: digits) ∧ digits ≠ [] ∧
      (∀ c ∈ digits, c.isDigit) ∧ Nat.ofDigitChars 10 digits 0 = n := by
  have hread : ∀ digits : List Char,
      (if digits ≠ [] ∧ digits.all Char.isDigit then some (Decimal.ofDigits digits) else none) =
        some n ↔ digits ≠ [] ∧ (∀ c ∈ digits, c.isDigit) ∧ Nat.ofDigitChars 10 digits 0 = n := by
    intro digits
    rw [Option.ite_none_right_eq_some, List.all_eq_true, Option.some.injEq, and_assoc]
    rfl
  by_cases hplus : ∃ rest, cs = '+' :: rest
  · obtain ⟨rest, rfl⟩ := hplus
    refine (hread rest).trans ⟨fun h => ⟨rest, .inr rfl, h⟩, ?_⟩
    rintro ⟨digits, rfl | hcs, hne, hdigits, hn⟩
    · exact absurd (hdigits '+' List.mem_cons_self) (by decide)
    · cases hcs
      exact ⟨hne, hdigits, hn⟩
  · rw [readNatural, hread]
    · refine ⟨fun h => ⟨cs, .inl rfl, h⟩, ?_⟩
      rintro ⟨digits, rfl | hcs, h⟩
      · exact h
      · exact (hplus ⟨digits, hcs⟩).elim
    · exact fun rest hcs => hplus ⟨rest, hcs⟩

theorem readIndex_eq_some_iff {segment : String} {i : Nat} :
    readIndex segment = some i ↔ IsIndex segment i := by
  rw [readIndex, Option.filter_eq_some_iff, readNatural_eq_some_iff, decide_eq_true_iff]
  constructor
  · rintro ⟨⟨digits, hcs, hne, hdigits, hi⟩, hlt⟩
    exact ⟨digits, hcs, hne, hdigits, hi, hlt⟩
  · rintro ⟨digits, hcs, hne, hdigits, hi, hlt⟩
    exact ⟨⟨digits, hcs, hne, hdigits, hi⟩, hlt⟩

theorem IsIndex.unique {segment : String} {i j : Nat} (hi : IsIndex segment i)
    (hj : IsIndex segment j) : i = j :=
  Option.some.inj ((readIndex_eq_some_iff.2 hi).symm.trans (readIndex_eq_some_iff.2 hj))

theorem isDigit_of_mem_repr {i : Nat} {c : Char} (hc : c ∈ (Nat.repr i).toList) : c.isDigit := by
  rw [Nat.toList_repr] at hc
  exact Nat.isDigit_of_mem_toDigits (by decide) (by decide) hc

/-- An index is named by its decimal digits. -/
theorem isIndex_repr {i : Nat} (hi : i < Nat.pow 2 64) : IsIndex (Nat.repr i) i := by
  refine ⟨(Nat.repr i).toList, .inl rfl, ?_, fun _ => isDigit_of_mem_repr, ?_, hi⟩
  · rw [Nat.toList_repr]
    exact Nat.toDigits_ne_nil
  · rw [Nat.toList_repr, Nat.ofDigitChars_ten_toDigits]

namespace Step

variable {step : Step}

theorem Nameable.dot_notMem (h : step.Nameable) : '.' ∉ step.segment.toList := by
  cases step with
  | key k => exact h.1
  | index i => exact fun hdot => absurd (isDigit_of_mem_repr hdot) (by decide)

theorem Nameable.ne_this (h : step.Nameable) : step.segment ≠ "this" := by
  cases step with
  | key k => exact h.2
  | index i =>
    intro hthis
    have ht : 't' ∈ (Nat.repr i).toList := by
      change 't' ∈ (segment (.index i)).toList
      rw [hthis]
      decide
    exact absurd (isDigit_of_mem_repr ht) (by decide)

end Step

namespace Value

variable {v w : Value} {segment : String} {ss : List String} {step step' : Step}
variable {steps steps' : List Step}

theorem Reads.unique (h : v.Reads segment step) (h' : v.Reads segment step') : step = step' := by
  cases h with
  | key =>
    cases h'
    rfl
  | index hi =>
    cases h' with
    | index hj => rw [hi.unique hj]

theorem Names.unique (h : v.Names ss steps) (h' : v.Names ss steps') : steps = steps' := by
  induction h generalizing steps' with
  | nil =>
    cases h'
    rfl
  | cons hreads hchild _ ih =>
    cases h' with
    | cons hreads' hchild' hnames' =>
      obtain rfl := hreads.unique hreads'
      obtain rfl := Option.some.inj (hchild.symm.trans hchild')
      rw [ih hnames']

theorem get?_eq_some_iff (hthis : segment ≠ "this") :
    v.get? segment = some w ↔ ∃ step, v.Reads segment step ∧ v.child? step = some w := by
  cases v with
  | map entries =>
    simp only [get?, if_neg hthis]
    constructor
    · exact fun h => ⟨.key segment, .key, h⟩
    · rintro ⟨_, ⟨⟩, h⟩
      exact h
  | list items =>
    simp only [get?, if_neg hthis, Option.bind_eq_some_iff, readIndex_eq_some_iff]
    constructor
    · rintro ⟨i, hi, h⟩
      exact ⟨.index i, .index hi, h⟩
    · rintro ⟨_, hreads, h⟩
      cases hreads with
      | index hi => exact ⟨_, hi, h⟩
  | null | bool | number | float | string =>
    simp only [get?, if_neg hthis]
    constructor
    · intro h
      cases h
    · rintro ⟨_, h, -⟩
      cases h

/-- Segments lead to the part that the steps named by them lead to. -/
theorem follow_eq_some_iff : v.follow ss = some w ↔
    ∃ steps, v.Names (ss.filter (· ≠ "this")) steps ∧ v.subvalue? steps = some w := by
  induction ss generalizing v with
  | nil =>
    constructor
    · exact fun h => ⟨[], .nil, h⟩
    · rintro ⟨_, ⟨⟩, h⟩
      exact h
  | cons segment ss ih =>
    by_cases hthis : segment = "this"
    · rw [follow, List.filter_cons_of_neg (by simp [hthis]), hthis, get?_this]
      exact ih
    · rw [follow, Option.bind_eq_some_iff, List.filter_cons_of_pos (by simp [hthis])]
      constructor
      · rintro ⟨u, hu, hw⟩
        obtain ⟨step, hreads, hchild⟩ := (get?_eq_some_iff hthis).1 hu
        obtain ⟨steps, hnames, hsub⟩ := ih.1 hw
        refine ⟨step :: steps, .cons hreads hchild hnames, ?_⟩
        rw [subvalue?, hchild]
        exact hsub
      · rintro ⟨_, hnames, hsub⟩
        cases hnames with
        | @cons _ u _ _ step steps hreads hchild hnames =>
          rw [subvalue?, hchild] at hsub
          exact ⟨u, (get?_eq_some_iff hthis).2 ⟨step, hreads, hchild⟩, ih.2 ⟨steps, hnames, hsub⟩⟩

theorem reads_segment (hstep : step.Nameable) (h : v.child? step = some w) :
    v.Reads step.segment step := by
  unfold child? at h
  split at h
  · exact .key
  · exact .index (isIndex_repr hstep)
  · cases h

/-- The segments of steps that lead somewhere name these steps. -/
theorem names_segments (hsteps : ∀ step ∈ steps, step.Nameable)
    (h : v.subvalue? steps = some w) : v.Names (steps.map Step.segment) steps := by
  induction steps generalizing v with
  | nil => exact .nil
  | cons step steps ih =>
    obtain ⟨u, hchild, hsub⟩ := Option.bind_eq_some_iff.1 h
    exact .cons (reads_segment (hsteps step List.mem_cons_self) hchild) hchild
      (ih (fun s hs => hsteps s (List.mem_cons_of_mem step hs)) hsub)

end Value

/-- The segments of a path of steps are theirs, and none of them is `this`. -/
theorem Step.segments_path {steps : List Step} (hne : steps ≠ [])
    (hsteps : ∀ step ∈ steps, step.Nameable) :
    (segments (path steps)).filter (· ≠ "this") = steps.map segment := by
  rw [path, segments_intercalate (mt List.map_eq_nil_iff.1 hne), List.filter_eq_self]
  · intro s hs
    obtain ⟨step, hstep, rfl⟩ := List.mem_map.1 hs
    exact decide_eq_true (hsteps step hstep).ne_this
  · intro s hs
    obtain ⟨step, hstep, rfl⟩ := List.mem_map.1 hs
    exact (hsteps step hstep).dot_notMem

/-- The path of steps that can be named finds the part that they lead to. And what any path finds is
the part at the steps that its segments name, those that are `this` left out; where these name no
steps, it finds nothing. -/
theorem lookup_reaches (v : Value) :
    (∀ steps w, steps ≠ [] → (∀ step ∈ steps, step.Nameable) → v.subvalue? steps = some w →
      v.lookup (Step.path steps) = some w) ∧
    ∀ path w, v.lookup path = some w ↔ ∃! steps,
      v.Names ((segments path).filter (· ≠ "this")) steps ∧ v.subvalue? steps = some w := by
  constructor
  · intro steps w hne hsteps hsub
    refine Value.follow_eq_some_iff.2 ⟨steps, ?_, hsub⟩
    rw [Step.segments_path hne hsteps]
    exact Value.names_segments hsteps hsub
  · intro path w
    rw [Value.lookup, Value.follow_eq_some_iff]
    constructor
    · rintro ⟨steps, hnames, hsub⟩
      exact ⟨steps, ⟨hnames, hsub⟩, fun _ h => h.1.unique hnames⟩
    · exact ExistsUnique.exists

/-- Through a list to the entry of an empty key. -/
theorem lookup_reaches_nested :
    let v : Value := .map [("a", .list [.null, .map [("", .bool true)]])]
    let steps : List Step := [.key "a", .index 1, .key ""]
    steps ≠ [] ∧ (∀ step ∈ steps, step.Nameable) ∧ v.subvalue? steps = some (.bool true) ∧
      v.lookup "a.1." = some (.bool true) := by
  intro v steps
  have hsteps : ∀ step ∈ steps, step.Nameable := by decide
  have hsub : v.subvalue? steps = some (.bool true) := rfl
  exact ⟨nofun, hsteps, hsub, (lookup_reaches v).1 steps _ nofun hsteps hsub⟩

-- another spelling of the same steps
example : (Value.map [("a", .list [.null, .map [("", .bool true)]])]).lookup "this.a.+01.this." =
    some (.bool true) := rfl

end BraceTemplate
