import BraceTemplate.Proofs.Grammar.Recorded

/-!
# The furthest misses

Of a log of misses `Furthest` keeps the furthest place, with each label that was missed there once.
Two labels never have the same wording, so the wordings differ as well. What was missed before a
place does not show once something has been missed behind it.
-/

namespace BraceTemplate

namespace Label

def chars : Label → List Char
  | identifier => ['i', 'd', 'e', 'n', 't', 'i', 'f', 'i', 'e', 'r']
  | partialName => ['p', 'a', 'r', 't', 'i', 'a', 'l', ' ', 'n', 'a', 'm', 'e']
  | token text => ['`'] ++ (text ++ ['`'])
  | closingTag name => ['c', 'l', 'o', 's', 'i', 'n', 'g', ' ', 't', 'a', 'g', ' ', '`', '{', '{',
      '/'] ++ (name.toList ++ ['}', '}', '`'])
  | closingQuote quote => ['c', 'l', 'o', 's', 'i', 'n', 'g', ' ', '`', quote, '`']

theorem toList_between (before after : String) {name : String} {cs : List Char}
    (h : name.toList = cs) :
    (before ++ name ++ after).toList = before.toList ++ (cs ++ after.toList) := by
  rw [String.toList_append, String.toList_append, List.append_assoc, h]

theorem toList_text (l : Label) : l.text.toList = l.chars := by
  cases l with
  | identifier | partialName => rfl
  | token text => exact toList_between _ _ String.toList_ofList
  | closingTag name => exact toList_between _ _ rfl
  | closingQuote quote => exact toList_between _ _ String.toList_ofList

/-- Labels are told apart by their wording. -/
theorem text_inj {l l' : Label} (h : l.text = l'.text) : l = l' := by
  have hchars : l.chars = l'.chars := by rw [← toList_text, ← toList_text, h]
  cases l <;> cases l' <;> simp_all [chars, String.toList_inj]

theorem text_ne_templateContent (l : Label) : l.text ≠ "template content" := by
  intro h
  have hchars : l.chars = "template content".toList := by rw [← toList_text, h]
  cases l <;> simp [chars] at hchars

end Label

namespace Furthest

variable {f : Furthest Label} {n total : Nat} {label : Label} {ms ms' : List Miss}

/-- No label is kept twice, and there is one unless nothing was missed behind the start. -/
structure Kept (f : Furthest Label) : Prop where
  nodup : f.expected.Nodup
  none : f.expected = [] → f.offset = 0

/-- No wording is kept twice either. -/
theorem Kept.nodup_text (h : f.Kept) : (f.expected.map Label.text).Nodup :=
  List.pairwise_map.2 (h.nodup.imp fun hne htext => hne (Label.text_inj htext))

theorem templateContent_notMem (f : Furthest Label) :
    "template content" ∉ f.expected.map Label.text := by
  intro hmem
  obtain ⟨label, -, htext⟩ := List.mem_map.1 hmem
  exact label.text_ne_templateContent htext

/-! ## A log of misses -/

/-- The misses of a log with their places in a text of `total` characters. -/
def places (total : Nat) (ms : List Miss) : List (Nat × Label) :=
  ms.map fun m => (total - m.left, m.label)

theorem reports_ofMisses (total : Nat) (ms : List Miss) :
    (ofMisses total ms).Reports (places total ms) :=
  reports_recordAll _

theorem places_append (total : Nat) (ms ms' : List Miss) :
    places total (ms ++ ms') = places total ms ++ places total ms' :=
  List.map_append

theorem mem_places {offset : Nat} :
    (offset, label) ∈ places total ms ↔ ∃ m ∈ ms, m.label = label ∧ total - m.left = offset := by
  simp [places, and_comm]

theorem kept_ofMisses (total : Nat) (ms : List Miss) : (ofMisses total ms).Kept := by
  refine ⟨(reports_ofMisses total ms).firstsOf.nodup, fun hnil => ?_⟩
  have hnone : places total ms = [] := (reports_ofMisses total ms).expected_eq_nil_iff.1 hnil
  obtain rfl : ms = [] := List.map_eq_nil_iff.1 hnone
  rfl

theorem le_ofMisses (total : Nat) {m : Miss} (h : m ∈ ms) :
    total - m.left ≤ (ofMisses total ms).offset :=
  (reports_ofMisses total ms).le (mem_places.2 ⟨m, h, rfl, rfl⟩)

/-- What is kept was missed at the furthest place. -/
theorem exists_of_mem_expected (h : label ∈ (ofMisses total ms).expected) :
    ∃ m ∈ ms, m.label = label ∧ total - m.left = (ofMisses total ms).offset :=
  mem_places.1 ((reports_ofMisses total ms).mem_iff.1 h)

theorem exists_at_offset (total : Nat) (hne : ms ≠ []) :
    ∃ m ∈ ms, total - m.left = (ofMisses total ms).offset := by
  obtain ⟨label, hmem⟩ := (reports_ofMisses total ms).exists_mem (mt List.map_eq_nil_iff.1 hne)
  obtain ⟨m, hm, -, hplace⟩ := mem_places.1 hmem
  exact ⟨m, hm, hplace⟩

/-- The same misses further on. -/
def behind (n : Nat) (f : Furthest Label) : Furthest Label := ⟨n + f.offset, f.expected⟩

theorem labelsAt_places (total offset : Nat) (ms : List Miss) :
    labelsAt offset (places total ms) =
      (ms.filter fun m => total - m.left = offset).map Miss.label := by
  rw [labelsAt, places, List.filter_map, List.map_map]
  rfl

theorem labelsAt_places_behind (offset : Nat) (h : ∀ m ∈ ms, m.left ≤ total) :
    labelsAt (n + offset) (places (n + total) ms) = labelsAt offset (places total ms) := by
  rw [labelsAt_places, labelsAt_places]
  refine congrArg (List.map Miss.label) (List.filter_congr fun m hm => decide_eq_decide.2 ?_)
  have := h m hm
  omega

/-- Misses in the first `n` characters do not show once there is one in the `total` behind them. -/
theorem ofMisses_append (hms : ∀ m ∈ ms, total < m.left ∧ m.left ≤ n + total)
    (hms' : ∀ m ∈ ms', m.left ≤ total) (hne : ms' ≠ []) :
    ofMisses (n + total) (ms ++ ms') = (ofMisses total ms').behind n := by
  have hoffset : (ofMisses (n + total) (ms ++ ms')).offset = n + (ofMisses total ms').offset := by
    obtain ⟨m', hm', hplace'⟩ := exists_at_offset total hne
    have hle := le_ofMisses (n + total) (List.mem_append_right ms hm')
    have hleft' := hms' m' hm'
    have hall : ms ++ ms' ≠ [] := List.append_ne_nil_of_right_ne_nil ms hne
    obtain ⟨m, hm, hplace⟩ := exists_at_offset (n + total) hall
    rcases List.mem_append.1 hm with hm | hm
    · have := hms m hm
      omega
    · have := hms' m hm
      have := le_ofMisses total hm
      omega
  have hnone : labelsAt (n + (ofMisses total ms').offset) (places (n + total) ms) = [] := by
    refine labelsAt_eq_nil fun ⟨offset, label⟩ hp => ?_
    obtain ⟨m, hm, -, hplace⟩ := mem_places.1 hp
    have := hms m hm
    show offset ≠ _
    omega
  refine Furthest.ext hoffset ?_
  rw [(reports_ofMisses _ _).firsts, hoffset, places_append, labelsAt_append, hnone,
    List.nil_append, labelsAt_places_behind _ hms', ← (reports_ofMisses total ms').firsts]
  rfl

end Furthest

/-! ## A single furthest miss -/

/-- No miss of the log is further than `last`, and nothing else is missed as far. -/
structure Miss.Latest (last : Miss) (ms : List Miss) : Prop where
  mem : last ∈ ms
  before : ∀ m ∈ ms, m = last ∨ last.left < m.left

namespace Furthest

variable {total : Nat} {last : Miss} {ms : List Miss}

/-- The furthest place of a log with a single furthest miss. -/
theorem ofMisses_of_latest (h : last.Latest ms) (hlt : last.left < total) :
    ofMisses total ms = ⟨total - last.left, [last.label]⟩ := by
  have hoffset : (ofMisses total ms).offset = total - last.left := by
    obtain ⟨m, hm, hplace⟩ := exists_at_offset total (List.ne_nil_of_mem h.mem)
    have hle := le_ofMisses total h.mem
    rcases h.before m hm with rfl | hbefore
    · exact hplace.symm
    · omega
  have hmem : ∀ label, label ∈ (ofMisses total ms).expected ↔ label ∈ [last.label] := by
    intro label
    rw [(reports_ofMisses total ms).mem_iff, hoffset, mem_places, List.mem_singleton]
    constructor
    · rintro ⟨m, hm, rfl, hplace⟩
      rcases h.before m hm with rfl | hbefore
      · rfl
      · omega
    · rintro rfl
      exact ⟨last, h.mem, rfl, rfl⟩
  have hperm := (List.perm_ext_iff_of_nodup (kept_ofMisses total ms).nodup
    (List.pairwise_singleton _ last.label)).2 hmem
  exact Furthest.ext hoffset (List.perm_singleton.1 hperm)

end Furthest
end BraceTemplate
