import BraceTemplate.Proofs.Grammar.ErrorPlace

/-!
# Lines and columns

The line and the column of a place lead back to its byte offset: the start of the line is as far
into the text as the lines above it are long, with a line feed behind each, and the column says how
many characters of the line come before the place (`Position.Fits`). The place behind a beginning of
a text fits, and so does the place of an error. In one text the order of offsets is that of lines,
and in a line that of columns.
-/

namespace BraceTemplate
namespace Position

variable {text line : List Char} {p q : Position}

/-- The lines of a text, which end at line feeds only. -/
def lines (text : List Char) : List (List Char) := text.splitOn '\n'

def lineStart (text : List Char) (number : Nat) : Nat :=
  byteLength (((lines text).take (number - 1)).flatMap (· ++ ['\n']))

/-- The text has the line and the line has the column, and the offset is that of the start of the
line and of the characters before the column. -/
structure Fits (text : List Char) (p : Position) : Prop where
  line_pos : 1 ≤ p.line
  column_pos : 1 ≤ p.column
  offset : ∃ line, (lines text)[p.line - 1]? = some line ∧ p.column - 1 ≤ line.length ∧
    p.offset = lineStart text p.line + byteLength (line.take (p.column - 1))

/-! ## Lines -/

theorem lines_cons (c : Char) (text : List Char) : lines (c :: text) =
    if c = '\n' then [] :: lines text else (lines text).modifyHead (c :: ·) := by
  rw [lines, List.splitOn_cons_eq_if_modifyHead]
  simp only [beq_iff_eq]
  rfl

theorem lines_append (above below : List Char) :
    lines (above ++ '\n' :: below) = lines above ++ lines below :=
  List.splitOn_append_cons_self above below

theorem exists_lines (text : List Char) : ∃ first rest, lines text = first :: rest :=
  List.exists_cons_of_ne_nil (List.splitOn_ne_nil '\n' text)

theorem length_lines (text : List Char) : (lines text).length = text.count '\n' + 1 := by
  induction text with
  | nil => rfl
  | cons c cs ih =>
    rw [lines_cons]
    by_cases hc : c = '\n'
    · simp [hc, ih]
    · simp [hc, ih]

theorem flatMap_lines (text : List Char) :
    (lines text).flatMap (· ++ ['\n']) = text ++ ['\n'] := by
  induction text with
  | nil => rfl
  | cons c cs ih =>
    rw [lines_cons]
    by_cases hc : c = '\n'
    · simp [hc, ih]
    · obtain ⟨first, rest, hlines⟩ := exists_lines cs
      rw [hlines] at ih ⊢
      simpa [hc] using ih

/-- What is put in front of a text without a line feed goes to its first line. -/
theorem lines_of_notMem {left : List Char} (h : '\n' ∉ left) (text : List Char) :
    ∃ right below, lines (left ++ text) = (left ++ right) :: below := by
  induction left with
  | nil => exact exists_lines text
  | cons c cs ih =>
    obtain ⟨right, below, hlines⟩ := ih fun hcs => h (List.mem_cons_of_mem c hcs)
    have hc : c ≠ '\n' := fun hc => h (by simp [hc])
    refine ⟨right, below, ?_⟩
    rw [List.cons_append, lines_cons, if_neg hc, hlines]
    rfl

/-- A text has no line feed, or there is a last one in it. -/
theorem last_line (text : List Char) :
    '\n' ∉ text ∨ ∃ above left, text = above ++ '\n' :: left ∧ '\n' ∉ left := by
  by_cases h : '\n' ∈ text
  · obtain ⟨left, above, htext, hleft⟩ := List.eq_append_cons_of_mem (List.mem_reverse.2 h)
    refine .inr ⟨above.reverse, left.reverse, ?_, by simpa using hleft⟩
    simpa using congrArg List.reverse htext
  · exact .inl h

/-! ## Places -/

/-- The place behind the lines above and the left part of a line fits. -/
theorem Fits.of_lines {above below : List (List Char)} {left right : List Char}
    (h : lines text = above ++ (left ++ right) :: below) :
    Fits text ⟨byteLength (above.flatMap (· ++ ['\n'])) + byteLength left, above.length + 1,
      left.length + 1⟩ where
  line_pos := Nat.succ_pos _
  column_pos := Nat.succ_pos _
  offset := by
    refine ⟨left ++ right, ?_, ?_, ?_⟩
    · simp [h]
    · simp
    · simp [lineStart, h]

theorem ne_of_mem_reverse {left : List Char} (h : '\n' ∉ left) :
    ∀ c ∈ left.reverse, decide (c ≠ '\n') = true := by
  intro c hc
  have hne : c ≠ '\n' := fun hc' => h (by simpa [hc'] using hc)
  simpa using hne

theorem after_of_notMem {left : List Char} (h : '\n' ∉ left) :
    after left = ⟨byteLength left, 1, left.length + 1⟩ := by
  rw [after, List.takeWhile_eq_self_iff.2 (ne_of_mem_reverse h), List.count_eq_zero_of_not_mem h,
    List.length_reverse]

theorem after_of_last {left : List Char} (h : '\n' ∉ left) (above : List Char) :
    after (above ++ '\n' :: left) =
      ⟨byteLength (above ++ ['\n']) + byteLength left, above.count '\n' + 2, left.length + 1⟩ := by
  have htake : (above ++ '\n' :: left).reverse.takeWhile (· ≠ '\n') = left.reverse := by
    rw [List.reverse_append, List.reverse_cons, List.append_assoc,
      List.takeWhile_append_of_pos (ne_of_mem_reverse h)]
    simp
  rw [after, htake]
  simp [List.count_eq_zero_of_not_mem h, byteLength_append, byteLength, Nat.add_assoc]

/-- The place behind a beginning of the text fits. -/
theorem fits_after (pre post : List Char) : (after pre).Fits (pre ++ post) := by
  rcases last_line pre with hpre | ⟨above, left, rfl, hleft⟩
  · obtain ⟨right, below, hlines⟩ := lines_of_notMem hpre post
    have hfirst : lines (pre ++ post) = [] ++ (pre ++ right) :: below := hlines
    have hfits := Fits.of_lines hfirst
    rw [after_of_notMem hpre]
    simpa [byteLength] using hfits
  · obtain ⟨right, below, hlines⟩ := lines_of_notMem hleft post
    have hfits := Fits.of_lines ((lines_append above (left ++ post)).trans (congrArg _ hlines))
    rw [flatMap_lines, length_lines] at hfits
    rw [after_of_last hleft, List.append_assoc, List.cons_append]
    exact hfits

/-! ## The order of places -/

theorem byteLength_lt_of_prefix {a b : List Char} (h : a <+: b) (hlt : a.length < b.length) :
    byteLength a < byteLength b := by
  obtain ⟨c, rfl⟩ := h
  obtain ⟨d, c, rfl⟩ := List.exists_cons_of_ne_nil (l := c) (by rintro rfl; simp at hlt)
  have hpos := d.utf8Size_pos
  simp only [byteLength_append, byteLength]
  omega

theorem lineStart_succ {n : Nat} (hn : 1 ≤ n) (h : (lines text)[n - 1]? = some line) :
    lineStart text (n + 1) = lineStart text n + byteLength line + 1 := by
  obtain ⟨n, rfl⟩ := Nat.exists_eq_add_of_le' hn
  rw [Nat.add_sub_cancel] at h
  have htake : (lines text).take (n + 1) = (lines text).take n ++ [line] := by
    rw [List.take_add_one, h]
    rfl
  have hline : byteLength ([line].flatMap (· ++ ['\n'])) = byteLength line + 1 := by
    rw [List.flatMap_singleton, byteLength_append]
    rfl
  rw [lineStart, lineStart, Nat.add_sub_cancel, htake, List.flatMap_append, byteLength_append,
    hline, Nat.add_assoc]
  rfl

theorem lineStart_mono {m n : Nat} (h : m ≤ n) : lineStart text m ≤ lineStart text n := by
  have htake : (lines text).take (m - 1) <+: (lines text).take (n - 1) :=
    List.take_prefix_take_left (by omega)
  obtain ⟨between, hbetween⟩ := htake
  refine byteLength_le_of_prefix ⟨between.flatMap (· ++ ['\n']), ?_⟩
  rw [← List.flatMap_append, hbetween]

theorem Fits.lt_of_line_lt (hp : p.Fits text) (hq : q.Fits text) (h : p.line < q.line) :
    p.offset < q.offset := by
  obtain ⟨line, hline, -, hoffset⟩ := hp.offset
  obtain ⟨_, -, -, hoffset'⟩ := hq.offset
  have hnext := lineStart_succ hp.line_pos hline
  have hmono : lineStart text (p.line + 1) ≤ lineStart text q.line := lineStart_mono h
  have hpart := byteLength_le_of_prefix (List.take_prefix (p.column - 1) line)
  omega

theorem Fits.same_line (hp : p.Fits text) (hq : q.Fits text) (h : p.line = q.line) :
    ∃ line : List Char, q.column - 1 ≤ line.length ∧
      p.offset = lineStart text p.line + byteLength (line.take (p.column - 1)) ∧
      q.offset = lineStart text p.line + byteLength (line.take (q.column - 1)) := by
  obtain ⟨line, hget, -, hoffset⟩ := hp.offset
  obtain ⟨line', hget', hlength, hoffset'⟩ := hq.offset
  rw [← h] at hget' hoffset'
  obtain rfl : line = line' := Option.some.inj (hget.symm.trans hget')
  exact ⟨line, hlength, hoffset, hoffset'⟩

theorem Fits.lt_of_column_lt (hp : p.Fits text) (hq : q.Fits text) (hline : p.line = q.line)
    (h : p.column < q.column) : p.offset < q.offset := by
  obtain ⟨line, hlength, hoffset, hoffset'⟩ := hp.same_line hq hline
  have hcolumn := hp.column_pos
  have hpart : byteLength (line.take (p.column - 1)) < byteLength (line.take (q.column - 1)) := by
    refine byteLength_lt_of_prefix (List.take_prefix_take_left (by omega)) ?_
    simp only [List.length_take]
    omega
  omega

theorem Fits.eq_of_line_column (hp : p.Fits text) (hq : q.Fits text) (hline : p.line = q.line)
    (hcolumn : p.column = q.column) : p = q := by
  obtain ⟨line, -, hoffset, hoffset'⟩ := hp.same_line hq hline
  rw [← hcolumn, ← hoffset] at hoffset'
  obtain ⟨_, _, _⟩ := p
  obtain ⟨_, _, _⟩ := q
  simp_all

theorem Fits.offset_lt_iff (hp : p.Fits text) (hq : q.Fits text) :
    p.offset < q.offset ↔ p.line < q.line ∨ p.line = q.line ∧ p.column < q.column := by
  constructor
  · intro h
    by_contra hnot
    have hback : q.line < p.line ∨ q.line = p.line ∧ q.column ≤ p.column := by omega
    rcases hback with hline | ⟨hline, hcolumn⟩
    · exact Nat.lt_asymm h (hq.lt_of_line_lt hp hline)
    · rcases Nat.lt_or_eq_of_le hcolumn with hcolumn | hcolumn
      · exact Nat.lt_asymm h (hq.lt_of_column_lt hp hline hcolumn)
      · rw [hq.eq_of_line_column hp hline hcolumn] at h
        exact Nat.lt_irrefl _ h
  · rintro (hline | ⟨hline, hcolumn⟩)
    · exact hp.lt_of_line_lt hq hline
    · exact hp.lt_of_column_lt hq hline hcolumn

end Position

/-! ## The place of an error -/

/-- An error is at the place behind a beginning of the text. -/
theorem exists_after_of_error {limit : Nat} {text : List Char} {e : ParseError}
    (h : parseChars limit text = .error e) : ∃ n, e.position = .after (text.take n) := by
  have hstopped : ∀ rest misses, ∃ n,
      (stoppedBefore text rest misses).position = .after (text.take n) := by
    intro rest misses
    unfold stoppedBefore
    simp only
    split
    · exact ⟨_, rfl⟩
    · exact ⟨_, rfl⟩
  unfold parseChars at h
  split at h
  · cases h
  · cases h
    exact hstopped _ _
  · cases h
    exact hstopped _ _
  · cases h
    exact ⟨_, rfl⟩

/-- The line and the column of an error say where in the text its offset is. Of two places that do
so, the same line and column are those of the same place, and the order of the offsets is that of
the lines and, in one line, of the columns. -/
theorem parseWithin_errorLine (text : String) :
    (∀ limit e, parseWithin limit text = .error e → e.position.Fits text.toList) ∧
    ∀ p q : Position, p.Fits text.toList → q.Fits text.toList →
      (p.line = q.line ∧ p.column = q.column → p = q) ∧
      (p.offset < q.offset ↔ p.line < q.line ∨ p.line = q.line ∧ p.column < q.column) := by
  refine ⟨fun limit e h => ?_, fun p q hp hq =>
    ⟨fun h => hp.eq_of_line_column hq h.1 h.2, hp.offset_lt_iff hq⟩⟩
  obtain ⟨n, hn⟩ := exists_after_of_error h
  have hfits := Position.fits_after (text.toList.take n) (text.toList.drop n)
  rw [List.take_append_drop] at hfits
  rwa [hn]

/-- A block that nests too deep, and the start of the line that it is in. -/
theorem parseWithin_errorLine_block :
    parseWithin 0 "é\n\x7b\x7b#a\x7d\x7d" = .error (.tooDeep ⟨9, 2, 7⟩ 0) ∧
      Position.Fits "é\n\x7b\x7b#a\x7d\x7d".toList ⟨9, 2, 7⟩ ∧
      Position.Fits "é\n\x7b\x7b#a\x7d\x7d".toList ⟨3, 2, 1⟩ ∧
      (3 < 9 ↔ 2 < 2 ∨ 2 = 2 ∧ 1 < 7) := by
  have h : parseWithin 0 "é\n\x7b\x7b#a\x7d\x7d" = .error (.tooDeep ⟨9, 2, 7⟩ 0) := by cbv
  obtain ⟨herror, horder⟩ := parseWithin_errorLine "é\n\x7b\x7b#a\x7d\x7d"
  have hstart : Position.Fits "é\n\x7b\x7b#a\x7d\x7d".toList ⟨3, 2, 1⟩ :=
    Position.fits_after "é\n".toList "\x7b\x7b#a\x7d\x7d".toList
  exact ⟨h, herror 0 _ h, hstart, (horder _ _ hstart (herror 0 _ h)).2⟩

end BraceTemplate
