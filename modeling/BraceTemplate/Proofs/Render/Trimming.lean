import BraceTemplate.Proofs.Render.Braces
import BraceTemplate.Proofs.Text.Html

/-!
# Trimming

To trim a text is to strip the white space on the marked sides, all of it and nothing else
(`Trim.Strips`). Markers act one after the other as those of either do at once. Nothing that is
written for HTML starts or ends with white space but white space itself, so a tag may trim its
output before it escapes it or after (`trimming_acts`).
-/

namespace BraceTemplate

namespace Trim

/-- `stripped` is what is left of the text without the white space on the marked sides. -/
structure Strips (t : Trim) (s stripped : String) : Prop where
  parts : ∃ before after, s.toList = before ++ stripped.toList ++ after ∧
    (∀ c ∈ before ++ after, isWhiteSpace c = true) ∧
    (t.left = false → before = []) ∧ (t.right = false → after = [])
  left : t.left = true → ∀ c ∈ stripped.toList.head?, isWhiteSpace c = false
  right : t.right = true → ∀ c ∈ stripped.toList.getLast?, isWhiteSpace c = false

section
variable {α : Type} {p : α → Bool} {t : Trim} {a : α}

theorem exists_strip (t : Trim) (p : α → Bool) (l : List α) :
    ∃ before after, l = before ++ t.strip p l ++ after ∧ (∀ a ∈ before ++ after, p a = true) ∧
      (t.left = false → before = []) ∧ (t.right = false → after = []) := by
  have hleft : ∃ before, l = before ++ (if t.left then l.dropWhile p else l) ∧
      (∀ a ∈ before, p a = true) ∧ (t.left = false → before = []) := by
    cases t.left with
    | false => exact ⟨[], rfl, by simp, fun _ => rfl⟩
    | true =>
      exact ⟨l.takeWhile p, List.takeWhile_append_dropWhile.symm, fun a => List.mem_takeWhile_imp,
        fun h => by cases h⟩
  have hright : ∀ m : List α, ∃ after, m = (if t.right then m.rdropWhile p else m) ++ after ∧
      (∀ a ∈ after, p a = true) ∧ (t.right = false → after = []) := by
    intro m
    cases t.right with
    | false => exact ⟨[], by simp, by simp, fun _ => rfl⟩
    | true =>
      exact ⟨m.rtakeWhile p, List.rdropWhile_append_rtakeWhile.symm,
        fun a => List.mem_rtakeWhile_imp, fun h => by cases h⟩
  obtain ⟨before, hl, hbefore, hnone⟩ := hleft
  obtain ⟨after, hm, hafter, hnone'⟩ := hright (if t.left then l.dropWhile p else l)
  refine ⟨before, after, ?_, fun a ha => ?_, hnone, hnone'⟩
  · rw [List.append_assoc]
    exact hl.trans (congrArg (before ++ ·) hm)
  · exact (List.mem_append.1 ha).elim (hbefore a) (hafter a)

theorem not_of_head?_strip {l : List α} (ht : t.left = true) (h : a ∈ (t.strip p l).head?) :
    p a = false := by
  have hdrop : ∃ m : List α, t.strip p l = m.dropWhile p := by
    cases hr : t.right with
    | false => exact ⟨l, by simp [strip_eq, ht, hr]⟩
    | true => exact ⟨l.rdropWhile p, by simp [strip_eq, ht, hr, dropWhile_rdropWhile]⟩
  obtain ⟨m, hm⟩ := hdrop
  have hnot := List.head?_dropWhile_not p m
  rw [← hm, Option.mem_def.1 h] at hnot
  exact hnot

theorem not_of_getLast?_strip {l : List α} (ht : t.right = true)
    (h : a ∈ (t.strip p l).getLast?) : p a = false := by
  have hdrop : t.strip p l = (if t.left then l.dropWhile p else l).rdropWhile p := by
    simp [strip_eq, ht]
  rw [hdrop] at h
  obtain ⟨hne, rfl⟩ := List.mem_getLast?_eq_getLast h
  simpa using List.rdropWhile_last_not p _ hne

end

theorem strips_apply (t : Trim) (s : String) : t.Strips s (t.apply s) where
  parts := by
    rw [toList_apply]
    exact exists_strip t isWhiteSpace s.toList
  left ht c hc := by
    rw [toList_apply] at hc
    exact not_of_head?_strip ht hc
  right ht c hc := by
    rw [toList_apply] at hc
    exact not_of_getLast?_strip ht hc

theorem apply_apply (a b : Trim) (s : String) : a.apply (b.apply s) = (a.or b).apply s := by
  rw [← String.toList_inj, toList_apply, toList_apply, toList_apply, strip_strip]

end Trim

namespace Html

/-- White space is written as it is, and nothing else is written with white space. -/
theorem escape_apply (t : Trim) (s : String) : escape (t.apply s) = t.apply (escape s) := by
  rw [← String.toList_inj, Trim.toList_apply, escape, escape, String.toList_ofList,
    String.toList_ofList, Trim.toList_apply]
  refine (Trim.strip_flatMap (fun c hc d hd => ?_)
    (fun c hc => not_isWhiteSpace_of_mem_escapeChar hc) t s.toList).symm
  rw [escapeChar_of_isWhiteSpace hc, List.mem_singleton] at hd
  rwa [hd]

end Html

/-! ## Tags with markers -/

theorem Registry.emit_apply {reg : Registry} (hescape : reg.escape = Html.escape) (output : Output)
    (t : Trim) (s : String) : reg.emit output (t.apply s) = t.apply (reg.emit output s) := by
  cases output with
  | escaped => rw [emit, emit, hescape, Html.escape_apply]
  | raw => rfl

namespace Evaluation

variable {reg : Registry} {call : Task → Rendering String}

theorem node_reference_trim (hescape : reg.escape = Html.escape) (output : Output) (path : String)
    (t : Trim) : node reg call (.reference output path t) =
      t.apply <$> node reg call (.reference output path .none) := by
  cases hget : Table.get? reg.helpers path <;>
    simp only [node, hget, Registry.emit_apply hescape, Trim.apply_none, map_bind, map_pure]

theorem node_helper_trim (hescape : reg.escape = Html.escape) (output : Output) (name : String)
    (params : List Param) (otherwise : Option Block) (t : Trim) (marks : Option TrimMarks) :
    node reg call (.helper output name params none otherwise t marks) =
      t.apply <$> node reg call (.helper output name params none otherwise .none marks) := by
  simp only [node, Registry.emit_apply hescape, Trim.apply_none, map_bind, map_pure,
    Option.isSome_none, Bool.false_eq_true, if_false]

end Evaluation

/-- Trimming strips the white space on the marked sides. To trim twice is to trim once by the
markers of either, so to trim again changes nothing, and the order of two trimmings does not matter.
Nor does it matter on which side of writing for HTML a text is trimmed: a variable or an inline call
with markers is rendered to what the tag without them is rendered to, trimmed after escaping. -/
theorem trimming_acts (a b : Trim) (s : String) :
    a.Strips s (a.apply s) ∧ Trim.none.apply s = s ∧
    a.apply (b.apply s) = (a.or b).apply s ∧
    a.apply (a.apply s) = a.apply s ∧ a.apply (b.apply s) = b.apply (a.apply s) ∧
    Html.escape (a.apply s) = a.apply (Html.escape s) ∧
    ∀ reg : Registry, reg.escape = Html.escape →
      (∀ output path, Node.render reg (.reference output path a) =
        a.apply <$> Node.render reg (.reference output path .none)) ∧
      ∀ output name params otherwise marks,
        Node.render reg (.helper output name params none otherwise a marks) =
          a.apply <$> Node.render reg (.helper output name params none otherwise .none marks) := by
  have hself : a.or a = a := by simp [Trim.or]
  have hcomm : b.or a = a.or b := by simp [Trim.or, Bool.or_comm]
  refine ⟨a.strips_apply s, rfl, a.apply_apply b s, ?_, ?_, Html.escape_apply a s,
    fun reg hescape => ⟨fun output path => ?_, fun output name params otherwise marks => ?_⟩⟩
  · rw [Trim.apply_apply, hself]
  · rw [Trim.apply_apply, Trim.apply_apply, hcomm]
  · exact Evaluation.node_reference_trim hescape output path a
  · exact Evaluation.node_helper_trim hescape output name params otherwise a marks

/-- A text of white space alone, with a no-break space, and one with a quote at its end. -/
theorem trimming_acts_noBreakSpace :
    let left : Trim := ⟨true, false⟩
    let right : Trim := ⟨false, true⟩
    left.apply (right.apply " \u00a0") = Trim.apply ⟨true, true⟩ " \u00a0" ∧
      left.apply (right.apply " \u00a0") = "" ∧
      Html.escape (left.apply "\u00a0 '") = left.apply "\u00a0 &#x27;" ∧
      left.apply "\u00a0 &#x27;" = "&#x27;" ∧
      Node.render {} (.reference .escaped "x" left) =
        left.apply <$> Node.render {} (.reference .escaped "x" .none) := by
  intro left right
  obtain ⟨-, -, htwice, -⟩ := trimming_acts left right " \u00a0"
  obtain ⟨-, -, -, -, -, hescape, htag⟩ := trimming_acts left right "\u00a0 '"
  exact ⟨htwice, by decide, hescape, by decide, (htag {} rfl).1 _ _⟩

end BraceTemplate
