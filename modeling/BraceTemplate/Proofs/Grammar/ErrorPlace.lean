import BraceTemplate.Proofs.Grammar.Furthest
import BraceTemplate.Proofs.Grammar.Misses
import BraceTemplate.Proofs.Grammar.Soundness
import Mathlib

/-!
# Where a text goes wrong

A template that is not read to its end stops before two opening braces, and behind them some token
was missed: a rule that has read the braces of a tag does not refuse without a report (`Reports`).
So the error of a text stands inside the tag that is no tag, what it expects are the tokens missed
there, and the text before that tag is a template.
-/

namespace BraceTemplate

open Rule

/-! ## Rules that report -/

namespace Rule

variable {α β : Type} {p : Rule α} {f : α → Rule β}

/-- Where the rule refuses, it has missed something. -/
def Reports (p : Rule α) : Prop := ∀ ⦃s⦄, Refuses p s → ∃ m, m ∈ (p s).misses

theorem reports_of_reads (h : ∀ s, ¬ Refuses p s) : p.Reports := fun s hs => (h s hs).elim

theorem reports_expect (label : Label) (p : Rule α) : (expect label p).Reports := fun s h =>
  ⟨⟨s.length, label⟩, mem_misses_expect.2 (.inr ⟨refuses_expect.1 h, rfl⟩)⟩

theorem Reports.bind (hp : p.Reports) (hf : ∀ a, (f a).Reports) : (p >>= f).Reports := by
  intro s h
  rcases refuses_bind.1 h with h | ⟨a, mid, ha, h⟩
  · obtain ⟨m, hm⟩ := hp h
    exact ⟨m, mem_misses_bind.2 (.inl hm)⟩
  · obtain ⟨m, hm⟩ := hf a h
    exact ⟨m, mem_misses_bind.2 (.inr ⟨a, mid, ha, hm⟩)⟩

theorem reports_pure (a : α) : (pure a : Rule α).Reports :=
  reports_of_reads fun _ => not_refuses_pure

theorem not_refuses_optional {s : List Char} : ¬ Refuses (Rule.optional p) s := by
  intro h
  exact not_refuses_pure (refuses_orElse.1 h).2

end Rule

theorem reports_blanks : Grammar.blanks.Reports :=
  Reports.bind (reports_of_reads fun _ h => by cases h) fun _ => reports_pure _

theorem reports_tilde : Grammar.tilde.Reports :=
  Reports.bind (reports_of_reads fun _ => not_refuses_optional) fun _ => reports_pure _

theorem reports_path : Grammar.path.Reports := by
  refine (reports_expect _ _).bind fun head => Reports.bind ?_ fun _ => reports_pure _
  -- the segments behind a name come to an end, as each of them starts with a dot
  have hdot : (Grammar.literal ['.']).Consumes := by
    intro s a rest h
    rw [reads_literal.1 h]
    simp
  refine reports_of_reads fun s => Consumes.not_refuses_many (hdot.bind fun _ => ?_)
  exact onward_identifier.orElse ((onward_literal _).bind fun _ => onward_pure _)

/-- Behind the braces of a tag, what is no variable misses something. -/
theorem exists_miss_reference (output : Output) {u : List Char}
    (h : Refuses (Grammar.reference output) (output.opening ++ u)) :
    ∃ m ∈ (Grammar.reference output (output.opening ++ u)).misses, m.left ≤ u.length := by
  have hbraces : Reads (Grammar.literal output.opening) (output.opening ++ u) () u :=
    reads_literal.2 rfl
  rcases refuses_bind.1 h with h | ⟨_, mid, hmid, h⟩
  · exact (hbraces.not_refuses h).elim
  obtain ⟨-, rfl⟩ := hbraces.functional hmid
  have hreports : Reports (do
      let left ← Grammar.tilde
      Grammar.blanks
      let path ← Grammar.path
      Grammar.blanks
      let right ← Grammar.tilde
      Grammar.close output
      return Node.reference output path ⟨left, right⟩) :=
    reports_tilde.bind fun _ => reports_blanks.bind fun _ => reports_path.bind fun _ =>
      reports_blanks.bind fun _ => reports_tilde.bind fun _ => (reports_expect _ _).bind fun _ =>
        reports_pure _
  obtain ⟨m, hm⟩ := hreports h
  refine ⟨m, mem_misses_bind.2 (.inr ⟨(), u, hbraces, hm⟩), ?_⟩
  refine Onward.misses ?_ hm
  exact onward_tilde.bind fun _ => onward_blanks.bind fun _ => onward_path.bind fun _ =>
    onward_tagEnd fun _ => onward_pure _

/-! ## Where a template stops -/

variable {limit : Nat} {s rest : List Char} {b : Block}

theorem opening_of_refuses_content (h : Refuses Grammar.content rest) (hne : rest ≠ []) :
    ∃ u, rest = Output.escaped.opening ++ u := by
  have hbefore : Grammar.beforeTag rest = [] := by
    rw [Refuses, content_eq] at h
    split at h
    · assumption
    · cases h
  have hsplit := Grammar.beforeTag_append_fromTag rest
  rw [hbefore, List.nil_append] at hsplit
  rcases fromTag_cases rest with hnil | ⟨-, u, hu⟩
  · exact (hne (hsplit.symm.trans hnil)).elim
  · exact ⟨u, hsplit.symm.trans hu⟩

/-- A template stops at two opening braces, and something was missed behind them. -/
theorem exists_miss_of_reads_items (h : Reads (Grammar.items limit) s b rest) (hne : rest ≠ []) :
    ∃ u, rest = Output.escaped.opening ++ u ∧
      ∃ m ∈ (Grammar.items limit s).misses, m.left ≤ u.length := by
  obtain ⟨hrefuses, hmisses⟩ := refuses_of_reads_many h
  have hall := refuses_firstOf.1 hrefuses
  have hcontent : Refuses Grammar.content rest := hall _ (by simp)
  obtain ⟨u, rfl⟩ := opening_of_refuses_content hcontent hne
  obtain ⟨m, hm, hleft⟩ := exists_miss_reference .escaped (hall _ (by simp))
  refine ⟨u, rfl, m, hmisses m ?_, hleft⟩
  exact (mem_misses_firstOf_append [Grammar.content] _).2
    (.inr ⟨by simpa using hcontent, mem_misses_orElse.2 (.inl hm)⟩)

def furthest (limit : Nat) (s : List Char) : Furthest Label :=
  .ofMisses s.length (Grammar.items limit s).misses

/-- A template that stops has missed something two characters on, or further. -/
theorem furthest_of_reads_items (h : Reads (Grammar.items limit) s b rest) (hne : rest ≠ []) :
    s.length - rest.length + 2 ≤ (furthest limit s).offset ∧
      (furthest limit s).expected ≠ [] := by
  obtain ⟨u, rfl, m, hm, hleft⟩ := exists_miss_of_reads_items h hne
  have hplace := Furthest.le_ofMisses s.length hm
  have hsuffix := ((onward_items limit).rest h).length_le
  have hlength : (Output.escaped.opening ++ u).length = u.length + 2 := by
    simp [Output.opening]
  rw [hlength] at hsuffix ⊢
  change _ ≤ (furthest limit s).offset at hplace
  refine ⟨by omega, fun hnil => ?_⟩
  have hzero := (Furthest.kept_ofMisses s.length (Grammar.items limit s).misses).none hnil
  change (furthest limit s).offset = 0 at hzero
  omega

/-! ## The error of a text -/

/-- The error of a template that stops before the end of the text. -/
theorem parseChars_of_stopped (h : Reads (Grammar.items limit) s b rest) (hne : rest ≠ []) :
    parseChars limit s = .error (.unexpected (.after (s.take (furthest limit s).offset))
      ((furthest limit s).expected.map Label.text)) := by
  obtain ⟨hplace, hexpected⟩ := furthest_of_reads_items h hne
  have hbehind : s.length - rest.length ≤ (furthest limit s).offset := by omega
  have hstopped : stoppedBefore s rest (Grammar.items limit s).misses =
      .unexpected (.after (s.take (furthest limit s).offset))
        ((furthest limit s).expected.map Label.text) := if_pos ⟨hbehind, hexpected⟩
  rw [← hstopped]
  unfold parseChars
  rcases hitems : Grammar.items limit s with ⟨o, ms⟩
  rw [Reads, hitems] at h
  obtain rfl : o = .ok b rest := h
  cases rest with
  | nil => exact (hne rfl).elim
  | cons c rest => rfl

/-- The error of a template that nests too deep. -/
theorem parseChars_of_tooDeep {left : Nat} (h : (Grammar.items limit s).outcome = .tooDeep left) :
    parseChars limit s = .error (.tooDeep (positionLeft s left) limit) := by
  unfold parseChars
  rcases hitems : Grammar.items limit s with ⟨o, ms⟩
  rw [hitems] at h
  obtain rfl : o = .tooDeep left := h
  rfl

/-- There is no other reason why a text has an error. -/
theorem stopped_or_tooDeep {e : ParseError} (h : parseChars limit s = .error e) :
    (∃ b rest, Reads (Grammar.items limit) s b rest ∧ rest ≠ []) ∨
      ∃ left, (Grammar.items limit s).outcome = .tooDeep left := by
  rcases ho : (Grammar.items limit s).outcome with ⟨b, rest⟩ | _ | left
  · refine .inl ⟨b, rest, ho, ?_⟩
    rintro rfl
    rw [parseChars_of_reads ho] at h
    cases h
  · exact (not_refuses_items limit s ho).elim
  · exact .inr ⟨left, rfl⟩

/-- What is read before the place where a template stops is a template, and the furthest misses are
behind the braces that follow it. -/
theorem exists_parseChars_of_stopped (h : Reads (Grammar.items limit) s b rest) (hne : rest ≠ []) :
    ∃ w u, s = w ++ Output.escaped.opening ++ u ∧ parseChars limit w = .ok b ∧
      w ++ Output.escaped.opening <+: s.take (furthest limit s).offset := by
  obtain ⟨w, hw, hs, -⟩ := blockText_of_reads (formsBehindName_innerParams limit)
    (formsBody_blockBody limit) h
  obtain ⟨hoffset, -⟩ := furthest_of_reads_items h hne
  obtain ⟨u, rfl, -⟩ := exists_miss_of_reads_items h hne
  have hsplit : s = w ++ Output.escaped.opening ++ u := by rw [hs, List.append_assoc]
  refine ⟨w, u, hsplit, parseChars_of_written hw, List.prefix_take_iff.2 ⟨⟨u, hsplit.symm⟩, ?_⟩⟩
  have hlength := congrArg List.length hs
  simp only [List.length_append, Output.opening, List.length_cons, List.length_nil]
    at hlength hoffset ⊢
  omega

namespace Position

theorem byteLength_eq (cs : List Char) : byteLength cs = (String.ofList cs).utf8ByteSize := by
  induction cs with
  | nil => rfl
  | cons c cs ih =>
    have happend : String.ofList (c :: cs) = String.ofList [c] ++ String.ofList cs := by
      rw [← String.ofList_append]
      rfl
    rw [byteLength, ih, happend, String.utf8ByteSize_append]
    simp

theorem byteLength_le_of_prefix {a b : List Char} (h : a <+: b) :
    byteLength a ≤ byteLength b := by
  obtain ⟨c, rfl⟩ := h
  rw [byteLength_append]
  exact Nat.le_add_right _ _

/-- The place of a beginning of a text is between two of its characters, or at an end. -/
theorem isValid_after {text : String} {pre post : List Char} (h : text.toList = pre ++ post) :
    String.Pos.Raw.IsValid text ⟨(after pre).offset⟩ := by
  refine String.Pos.Raw.isValid_iff_exists_append.2
    ⟨String.ofList pre, String.ofList post, ?_, ?_⟩
  · rw [← String.ofList_append, ← h, String.ofList_toList]
  · rw [after, byteLength_eq]
    rfl

end Position

/-- The error of a text is at a place in it. A syntax error expects one token or more, each once,
and it is behind the opening braces of a tag before which the text is a template. -/
theorem parseWithin_errorPlace {text : String} {e : ParseError}
    (h : parseWithin limit text = .error e) :
    (∃ pre post, text.toList = pre ++ post ∧ e.position = .after pre) ∧
    String.Pos.Raw.IsValid text ⟨e.position.offset⟩ ∧
    ∀ position expected, e = .unexpected position expected →
      expected ≠ [] ∧ expected.Nodup ∧ "template content" ∉ expected ∧
      ∃ w v b, text.toList = w ++ Output.escaped.opening ++ v ∧
        Position.byteLength w + 2 ≤ position.offset ∧
        parseWithin limit (String.ofList w) = .ok b := by
  have hplace : ∀ n, text.toList = text.toList.take n ++ text.toList.drop n := fun n =>
    (List.take_append_drop n _).symm
  rcases stopped_or_tooDeep h with ⟨b, rest, hreads, hne⟩ | ⟨left, hdeep⟩
  · obtain rfl : ParseError.unexpected _ _ = e :=
      Except.error.inj ((parseChars_of_stopped hreads hne).symm.trans h)
    refine ⟨⟨_, _, hplace _, rfl⟩, Position.isValid_after (hplace _), ?_⟩
    rintro _ _ ⟨⟩
    have hexpected := (furthest_of_reads_items hreads hne).2
    have hkept : (furthest limit text.toList).Kept := Furthest.kept_ofMisses _ _
    obtain ⟨w, u, hw, hb, hopening⟩ := exists_parseChars_of_stopped hreads hne
    have hbytes := Position.byteLength_le_of_prefix hopening
    rw [Position.byteLength_append] at hbytes
    exact ⟨by simpa using hexpected, hkept.nodup_text, Furthest.templateContent_notMem _, w, u, b,
      hw, hbytes, by simpa [parseWithin] using hb⟩
  · obtain rfl : ParseError.tooDeep _ _ = e :=
      Except.error.inj ((parseChars_of_tooDeep hdeep).symm.trans h)
    exact ⟨⟨_, _, hplace _, rfl⟩, Position.isValid_after (hplace _), fun _ _ h => by cases h⟩

theorem parseWithin_errorPlace_openTag :
    String.Pos.Raw.IsValid "é\x7b\x7bx" ⟨5⟩ ∧ ∃ w v b,
      "é\x7b\x7bx".toList = w ++ Output.escaped.opening ++ v ∧
        Position.byteLength w + 2 ≤ 5 ∧ parseWithin 1 (String.ofList w) = .ok b := by
  have h : parseWithin 1 "é\x7b\x7bx" =
      .error (.unexpected ⟨5, 1, 5⟩ ["`\x7d\x7d`", "identifier"]) := by cbv
  have hplace := parseWithin_errorPlace h
  exact ⟨hplace.2.1, (hplace.2.2 _ _ rfl).2.2.2⟩

end BraceTemplate
