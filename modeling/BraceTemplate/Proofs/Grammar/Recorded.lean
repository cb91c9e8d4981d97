import Mathlib.Data.List.Basic
import Mathlib.Data.List.Induction
import BraceTemplate.Grammar.Label

/-!
# What is left of many misses

Misses come in any order of their places. Whatever that order is, what is kept of them in the end
is the furthest place, and the labels that were missed there: each once, in the order in which they
first occur there.
-/

namespace BraceTemplate

variable {α : Type} [DecidableEq α]

/-! ## First occurrences -/

/-- `firsts` lists what occurs in `as`, each once, in the order in which it first occurs. -/
structure FirstsOf (as firsts : List α) : Prop where
  mem_iff : ∀ a, a ∈ firsts ↔ a ∈ as
  nodup : firsts.Nodup
  ordered : firsts.Pairwise fun a b => as.idxOf a < as.idxOf b

section

variable {as : List α} {a : α}

theorem eraseDups_concat_of_mem (h : a ∈ as) : (as ++ [a]).eraseDups = as.eraseDups := by
  simp [List.eraseDups_append, List.removeAll, h]

theorem eraseDups_concat_of_notMem (h : a ∉ as) :
    (as ++ [a]).eraseDups = as.eraseDups ++ [a] := by
  simp [List.eraseDups_append, List.removeAll, List.eraseDups_cons, h]

theorem ordered_eraseDups (as : List α) :
    as.eraseDups.Pairwise fun a b => as.idxOf a < as.idxOf b := by
  induction as using List.reverseRecOn with
  | nil => exact List.Pairwise.nil
  | append_singleton as a ih =>
    -- what occurs in `as` first occurs there with `a` behind it, too
    have hbefore : as.eraseDups.Pairwise fun b c =>
        (as ++ [a]).idxOf b < (as ++ [a]).idxOf c := by
      refine ih.imp_of_mem fun {b c} hb hc hlt => ?_
      rw [List.idxOf_append_of_mem (List.mem_eraseDups.1 hb),
        List.idxOf_append_of_mem (List.mem_eraseDups.1 hc)]
      exact hlt
    by_cases ha : a ∈ as
    · rwa [eraseDups_concat_of_mem ha]
    · rw [eraseDups_concat_of_notMem ha, List.pairwise_append]
      refine ⟨hbefore, List.pairwise_singleton _ _, fun b hb c hc => ?_⟩
      obtain rfl := List.mem_singleton.1 hc
      have hb := List.mem_eraseDups.1 hb
      have hlt := List.idxOf_lt_length_of_mem hb
      rw [List.idxOf_append_of_mem hb, List.idxOf_append_of_notMem ha]
      omega

theorem firstsOf_eraseDups (as : List α) : FirstsOf as as.eraseDups where
  mem_iff _ := List.mem_eraseDups
  nodup := by
    refine (ordered_eraseDups as).imp ?_
    rintro a _ hlt rfl
    exact Nat.lt_irrefl _ hlt
  ordered := ordered_eraseDups as

end

namespace Furthest

variable {f : Furthest α} {offset : Nat} {label : α} {missed : List (Nat × α)}

/-! ## One more miss -/

theorem record_of_lt (h : f.offset < offset) : f.record offset label = ⟨offset, [label]⟩ :=
  if_pos h

theorem record_of_gt (h : offset < f.offset) : f.record offset label = f := by
  rw [record, if_neg (Nat.lt_asymm h), if_neg fun hnew => Nat.ne_of_lt h hnew.1]

theorem record_of_mem (h : label ∈ f.expected) : f.record f.offset label = f := by
  rw [record, if_neg (Nat.lt_irrefl _), if_neg fun hnew => hnew.2 h]

theorem record_of_notMem (h : label ∉ f.expected) :
    f.record f.offset label = ⟨f.offset, f.expected ++ [label]⟩ := by
  rw [record, if_neg (Nat.lt_irrefl _), if_pos ⟨rfl, h⟩]

theorem record_offset (f : Furthest α) (offset : Nat) (label : α) :
    (f.record offset label).offset = max f.offset offset := by
  unfold record
  split
  · show offset = max f.offset offset
    omega
  · split
    · show offset = max f.offset offset
      omega
    · omega

/-! ## The labels missed at one place -/

/-- The labels that are missed at `offset`, in the order in which they are. -/
def labelsAt (offset : Nat) (missed : List (Nat × α)) : List α :=
  (missed.filter fun m => m.1 = offset).map Prod.snd

section

omit [DecidableEq α]

theorem mem_labelsAt : label ∈ labelsAt offset missed ↔ (offset, label) ∈ missed := by
  simp [labelsAt]

theorem labelsAt_append (offset : Nat) (missed missed' : List (Nat × α)) :
    labelsAt offset (missed ++ missed') = labelsAt offset missed ++ labelsAt offset missed' := by
  simp [labelsAt]

theorem labelsAt_eq_nil (h : ∀ m ∈ missed, m.1 ≠ offset) : labelsAt offset missed = [] := by
  simpa [labelsAt] using h

theorem labelsAt_concat_self (offset : Nat) (label : α) (missed : List (Nat × α)) :
    labelsAt offset (missed ++ [(offset, label)]) = labelsAt offset missed ++ [label] := by
  simp [labelsAt]

theorem labelsAt_concat_of_ne {offset' : Nat} (h : offset' ≠ offset) :
    labelsAt offset (missed ++ [(offset', label)]) = labelsAt offset missed := by
  simp [labelsAt, h]

end

/-! ## The report on a sequence of misses -/

/-- `f` reports, of what was missed, the furthest place and the labels there. Where nothing was
missed, the place is the start. -/
structure Reports (f : Furthest α) (missed : List (Nat × α)) : Prop where
  furthest : (0 :: missed.map Prod.fst).max? = some f.offset
  firsts : f.expected = (labelsAt f.offset missed).eraseDups

theorem reports_start : (start : Furthest α).Reports [] := ⟨rfl, rfl⟩

namespace Reports

theorem le (h : f.Reports missed) {m : Nat × α} (hm : m ∈ missed) : m.1 ≤ f.offset :=
  (List.max?_eq_some_iff.1 h.furthest).2 _ (List.mem_cons_of_mem _ (List.mem_map_of_mem hm))

theorem firstsOf (h : f.Reports missed) : FirstsOf (labelsAt f.offset missed) f.expected := by
  rw [h.firsts]
  exact firstsOf_eraseDups _

theorem mem_iff (h : f.Reports missed) : label ∈ f.expected ↔ (f.offset, label) ∈ missed :=
  (h.firstsOf.mem_iff label).trans mem_labelsAt

/-- Something was missed at the furthest place, if anything was missed at all. -/
theorem exists_mem (h : f.Reports missed) (hne : missed ≠ []) :
    ∃ label, (f.offset, label) ∈ missed := by
  rcases List.mem_cons.1 (List.max?_eq_some_iff.1 h.furthest).1 with hzero | hmem
  · obtain ⟨m, hm⟩ := List.exists_mem_of_ne_nil missed hne
    have hle := h.le hm
    obtain hplace : m.1 = f.offset := by omega
    exact ⟨m.2, hplace ▸ hm⟩
  · obtain ⟨m, hm, hplace⟩ := List.mem_map.1 hmem
    exact ⟨m.2, hplace ▸ hm⟩

theorem expected_eq_nil_iff (h : f.Reports missed) : f.expected = [] ↔ missed = [] := by
  constructor
  · intro hnil
    by_contra hne
    obtain ⟨label, hmem⟩ := h.exists_mem hne
    have hin := h.mem_iff.2 hmem
    rw [hnil] at hin
    cases hin
  · rintro rfl
    exact h.firsts

/-- One miss more: the labels start anew behind the furthest place, grow by a label that is new at
it, and stay as they are otherwise. -/
theorem record (h : f.Reports missed) (offset : Nat) (label : α) :
    (f.record offset label).Reports (missed ++ [(offset, label)]) := by
  constructor
  · have hbefore := h.furthest
    rw [List.max?_cons', Option.some.injEq] at hbefore ⊢
    rw [record_offset, List.map_append, List.foldl_append, hbefore]
    rfl
  · have hmem : label ∈ f.expected ↔ label ∈ labelsAt f.offset missed := h.firstsOf.mem_iff label
    rcases Nat.lt_trichotomy offset f.offset with hlt | rfl | hlt
    · rw [record_of_gt hlt, labelsAt_concat_of_ne (Nat.ne_of_lt hlt)]
      exact h.firsts
    · by_cases hin : label ∈ f.expected
      · rw [record_of_mem hin, labelsAt_concat_self, eraseDups_concat_of_mem (hmem.1 hin)]
        exact h.firsts
      · rw [record_of_notMem hin, labelsAt_concat_self,
          eraseDups_concat_of_notMem (mt hmem.2 hin), ← h.firsts]
    · have hnone : labelsAt offset missed = [] :=
        labelsAt_eq_nil fun m hm => Nat.ne_of_lt (Nat.lt_of_le_of_lt (h.le hm) hlt)
      rw [record_of_lt hlt, labelsAt_concat_self, hnone]
      rfl

end Reports

theorem reports_recordAll (missed : List (Nat × α)) : (recordAll missed).Reports missed := by
  induction missed using List.reverseRecOn with
  | nil => exact reports_start
  | append_singleton missed m ih =>
    rw [recordAll, List.foldl_concat]
    exact ih.record m.1 m.2

/-- Of all that is missed, in any order of places, the furthest place is kept, or 0, and the labels
missed there, each once, in the order in which they first occur there. No label is kept only where
nothing was missed. -/
theorem recordAll_furthest (missed : List (Nat × α)) :
    (0 :: missed.map Prod.fst).max? = some (recordAll missed).offset ∧
    (recordAll missed).expected = (labelsAt (recordAll missed).offset missed).eraseDups ∧
    FirstsOf (labelsAt (recordAll missed).offset missed) (recordAll missed).expected ∧
    ((recordAll missed).expected = [] ↔ missed = []) := by
  have h := reports_recordAll missed
  exact ⟨h.furthest, h.firsts, h.firstsOf, h.expected_eq_nil_iff⟩

/-- A label that is missed again at the furthest place, and one that is missed before it. -/
example : recordAll [(2, "a"), (4, "b"), (4, "c"), (4, "b"), (3, "d")] = ⟨4, ["b", "c"]⟩ := by
  decide

end Furthest
end BraceTemplate
