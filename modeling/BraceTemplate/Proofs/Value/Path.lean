import BraceTemplate.Value.Path

/-!
# Segments of paths

The segments of two paths with a dot between them are those of the one and then those of the
other, so a path without a dot in front is the first segment, and the rest is a path of its own.
Following such a path is following the one and then the other (`Value.lookup_append`).
-/

namespace BraceTemplate

theorem segmentsOf_eq_self {cs : List Char} (h : '.' ∉ cs) : segmentsOf cs = [cs] := by
  induction cs with
  | nil => rfl
  | cons c cs ih =>
    rw [List.mem_cons, not_or] at h
    rw [segmentsOf, if_neg (Ne.symm h.1), ih h.2]

theorem segmentsOf_append (cs ds : List Char) :
    segmentsOf (cs ++ '.' :: ds) = segmentsOf cs ++ segmentsOf ds := by
  induction cs with
  | nil => rfl
  | cons c cs ih =>
    rw [List.cons_append, segmentsOf, segmentsOf, ih]
    by_cases hc : c = '.'
    · rw [if_pos hc, if_pos hc, List.cons_append]
    · rw [if_neg hc, if_neg hc]
      obtain ⟨s, ss, hs⟩ := List.exists_cons_of_ne_nil (segmentsOf_ne_nil cs)
      rw [hs]
      rfl

/-- A path without a dot is its only segment. -/
theorem segments_eq_self {path : String} (h : '.' ∉ path.toList) : segments path = [path] := by
  rw [segments, segmentsOf_eq_self h, List.map_singleton, String.ofList_toList]

theorem segments_append (p q : String) : segments (p ++ "." ++ q) = segments p ++ segments q := by
  have hlist : (p ++ "." ++ q).toList = p.toList ++ '.' :: q.toList := by simp
  rw [segments, hlist, segmentsOf_append, List.map_append]
  rfl

theorem segments_ne_nil (path : String) : segments path ≠ [] := by
  rw [segments, Ne, List.map_eq_nil_iff]
  exact segmentsOf_ne_nil path.toList

/-- The text before the first dot of a path. -/
def firstSegment (path : String) : String := (segments path).head (segments_ne_nil path)

theorem segments_eq_cons (path : String) :
    segments path = firstSegment path :: (segments path).tail :=
  (List.cons_head_tail (segments_ne_nil path)).symm

/-- Texts without dots are the segments of the path that joins them. -/
theorem segments_intercalate {ss : List String} (hss : ss ≠ []) (hdot : ∀ s ∈ ss, '.' ∉ s.toList) :
    segments (".".intercalate ss) = ss := by
  induction ss with
  | nil => exact (hss rfl).elim
  | cons s ss ih =>
    have hs := segments_eq_self (hdot s List.mem_cons_self)
    by_cases hnil : ss = []
    · subst hnil
      rw [String.intercalate_singleton, hs]
    · rw [String.intercalate_cons_of_ne_nil hnil, segments_append, hs,
        ih hnil fun t ht => hdot t (List.mem_cons_of_mem s ht), List.singleton_append]

namespace Value

theorem get?_this (v : Value) : v.get? "this" = some v := if_pos rfl

theorem follow_append (v : Value) (ss ts : List String) :
    v.follow (ss ++ ts) = (v.follow ss).bind (·.follow ts) := by
  induction ss generalizing v with
  | nil => rfl
  | cons s ss ih =>
    rw [List.cons_append, follow, follow, Option.bind_assoc]
    simp only [ih]

theorem lookup_append (v : Value) (p q : String) :
    v.lookup (p ++ "." ++ q) = (v.lookup p).bind (·.lookup q) := by
  rw [lookup, segments_append, follow_append]
  rfl

/-- From null a path leads to null again, by segments `this`, or nowhere. -/
theorem getD_follow_null (ss : List String) : (null.follow ss).getD null = null := by
  induction ss with
  | nil => rfl
  | cons s ss ih =>
    by_cases hs : s = "this"
    · rw [follow, hs, get?_this]
      exact ih
    · simp only [follow, get?, if_neg hs]
      rfl

end Value

end BraceTemplate
