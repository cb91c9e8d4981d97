import BraceTemplate.Proofs.Grammar.AppendError
import BraceTemplate.Proofs.Grammar.Enclosing
import BraceTemplate.Proofs.Grammar.Refusal
import Mathlib

/-!
# Closing tags of another name

A block ends with its own name. Where the closing tag has another, the body has been read to its
end, and the rule for the tag stops at the name. A name that only starts with the one of the block
is another as well, and there the rule stops behind what the two have in common. Nothing in the body
is missed as far, so the error is at the closing tag, whatever the body.
-/

namespace BraceTemplate

open Rule

variable {limit : Nat} {a b body : String} {block : Block} {rest x : List Char} {last : Miss}

/-! ## The closing tag -/

/-- A name at the start of a text is a part of the name there. -/
theorem prefix_of_append_eq {t u : List Char} {c : Char} (ha : IsName a)
    (hc : isNameChar c = false) (h : a.toList ++ t = b.toList ++ (c :: u)) :
    a.toList <+: b.toList := by
  rcases List.prefix_or_prefix_of_prefix ⟨t, h⟩ ⟨c :: u, rfl⟩ with hprefix | ⟨x, hx⟩
  · exact hprefix
  · rw [← hx, List.append_assoc] at h
    have hbehind : x ++ t = c :: u := List.append_cancel_left h
    cases x with
    | nil => exact ⟨[], by simpa using hx.symm⟩
    | cons d x =>
      obtain rfl : d = c := (List.cons.inj hbehind).1
      have hd := ha.2 d (by rw [← hx]; simp)
      rw [hc] at hd
      cases hd

theorem closingText_append : closingText b .none ++ rest =
    Output.escaped.opening ++ (mark false ++
      (['/'] ++ (b.toList ++ (Output.escaped.closing ++ rest)))) := by
  simp [closingText, Trim.none]

/-- The rule for a closing tag comes to its name without a miss. -/
theorem closingTag_eq : Grammar.closingTag a (closingText b .none ++ rest) =
    (do
      Rule.expect (.closingTag a) (Grammar.literal a.toList)
      let right ← Grammar.tilde
      Grammar.close .escaped
      return (⟨false, right⟩ : Trim)) (b.toList ++ (Output.escaped.closing ++ rest)) := by
  rw [closingText_append, Grammar.closingTag, tagHead_eq rfl, bind_of_ok (token_append _ _)]

/-- The rule stops at a name that does not start with its own. -/
theorem stops_closingTag_name (ha : IsName a) (hab : ¬ a.toList <+: b.toList) :
    Stops (Grammar.closingTag a) (closingText b .none ++ rest)
      ⟨(b.toList ++ (Output.escaped.closing ++ rest)).length, .closingTag a⟩ := by
  have hrefuses : Refuses (Grammar.literal a.toList)
      (b.toList ++ (Output.escaped.closing ++ rest)) := by
    rw [refuses_literal, Option.eq_none_iff_forall_ne_some]
    intro t ht
    exact hab (prefix_of_append_eq ha (by decide) (stripPrefix_eq_some.1 ht).symm)
  exact .of_eq closingTag_eq ((silent_literal a.toList).stops hrefuses).bind

/-- Where its own name goes on, the rule stops behind it. -/
theorem stops_closingTag_brace (hb : IsName b) (hx : a.toList ++ x = b.toList) (hne : x ≠ []) :
    Stops (Grammar.closingTag a) (closingText b .none ++ rest)
      ⟨(x ++ (Output.escaped.closing ++ rest)).length, .token Output.escaped.closing⟩ := by
  have hend : headIs isTagEnd (x ++ (Output.escaped.closing ++ rest)) = false := by
    rw [headIs_append hne]
    cases x with
    | nil => exact (hne rfl).elim
    | cons c x =>
      have hchar : isNameChar c = true := hb.2 c (by rw [← hx]; simp)
      exact not_isTagEnd_of_isParamStart c (isParamStart_of_isNameChar hchar)
  have hname : Rule.expect (.closingTag a) (Grammar.literal a.toList)
      (b.toList ++ (Output.escaped.closing ++ rest)) =
        ⟨.ok () (x ++ (Output.escaped.closing ++ rest)), []⟩ :=
    (silent_literal _).expect_of_reads (reads_literal.2 (by rw [← hx, List.append_assoc]))
  exact .of_eq (closingTag_eq.trans (bind_of_ok hname)) (stops_close hend)

/-! ## The body before it -/

/-- Nothing in the body of a block is missed behind the slash of the tag that ends it. -/
theorem Enclosable.before_name (h : Enclosable limit body block) {m : Miss}
    (hm : m ∈ (Grammar.blockBody (limit + 1)
      (body.toList ++ (closingText b .none ++ rest))).misses) :
    (b.toList ++ (Output.escaped.closing ++ rest)).length < m.left := by
  have hend : EndsBlock (closingText b .none ++ rest) := endsBlock_closing
  have hseam : Seam body.toList (closingText b .none ++ rest) := fun h' => h.last h'.1
  obtain ⟨ms, hms, hitems⟩ :=
    (parseChars_eq_ok_iff.1 h.reads).readsBefore (bodyBefore limit) hseam
  have hm : m ∈ (Grammar.items limit (body.toList ++ (closingText b .none ++ rest))).misses := hm
  rw [hitems, List.mem_append] at hm
  -- what was missed in the body itself, and what the rules for nodes miss at the tag behind it
  rcases hm with hm | hm
  · have hlt := hms m hm
    rw [closingText_append] at hlt
    simp only [List.length_append, List.length_cons] at hlt ⊢
    omega
  · rw [Grammar.items, many_of_refuses hend.refuses_node] at hm
    change m ∈ (Grammar.node _ _ (closingText b .none ++ rest)).misses at hm
    rw [closingText_append] at hm
    rw [left_of_mem_misses_slash hm]
    exact Nat.lt_succ_self _

/-- No alternative starts at a closing tag. -/
theorem before_name_markedElse {rBody : Rule Block} {m : Miss}
    (hm : m ∈ (Grammar.markedElse rBody (closingText b .none ++ rest)).misses) :
    (b.toList ++ (Output.escaped.closing ++ rest)).length < m.left := by
  rw [left_of_mem_misses_markedElse hm]
  simp [Trim.none]

/-- Behind the head of a block nothing is missed as far as in its closing tag. -/
theorem stops_blockTail (h : Enclosable limit body block)
    (hlast : last.left ≤ (b.toList ++ (Output.escaped.closing ++ rest)).length)
    (hclose : Stops (Grammar.closingTag a) (closingText b .none ++ rest) last)
    {f : Block → Option (Trim × Block) → Trim → Node} :
    Stops (blockTail (Grammar.blockBody (limit + 1))
        (Rule.optional (Grammar.markedElse (Grammar.blockBody (limit + 1)))) a f)
      (body.toList ++ (closingText b .none ++ rest)) last := by
  refine Stops.after (readsBody_blockBody (limit + 1) h.bodyText endsBlock_closing)
    (fun m hm => Nat.lt_of_le_of_lt hlast (h.before_name hm)) ?_
  refine Stops.after (Refuses.optional slashTag_closing.refuses_markedElse) (fun m hm => ?_)
    hclose.bind
  exact Nat.lt_of_le_of_lt hlast (before_name_markedElse (mem_misses_optional.1 hm))

/-- A block whose closing tag is refused is refused there. -/
theorem stops_node_openTag (ha : IsName a) (helse : a ≠ "else") (h : Enclosable limit body block)
    (hlast : last.left ≤ (b.toList ++ (Output.escaped.closing ++ rest)).length)
    (hclose : Stops (Grammar.closingTag a) (closingText b .none ++ rest) last) :
    Stops (Grammar.node (Grammar.innerParams (limit + 1)) (Grammar.blockBody (limit + 1)))
      ((openTag a).toList ++ (body.toList ++ (closingText b .none ++ rest))) last := by
  have htext : (openTag a).toList ++ (body.toList ++ (closingText b .none ++ rest)) =
      Output.escaped.opening ++ (mark false ++ (['#'] ++ (a.toList ++ (Output.escaped.closing ++
        (body.toList ++ (closingText b .none ++ rest)))))) := by
    simp [toList_openTag]
  have hnone : WithoutParams (Output.escaped.closing ++ (body.toList ++
      (closingText b .none ++ rest))) := .inl rfl
  -- the rule for binders stops at the head, as there are no parameters
  obtain ⟨f, hf⟩ := blockTag_eq (l := false) ha rfl (fun h => (helse h).elim) hnone
  have hblock := hf.trans (tagEnd_eq (r := false) blanks_nil)
  rw [htext]
  refine Stops.node (.of_eq hblock (stops_blockTail h hlast hclose))
    (binderTag_eq ha rfl (fun h => (helse h).elim) hnone) ?_
  simp only [closingText, List.length_append, List.length_cons, List.length_nil] at hlast ⊢
  omega

/-! ## The error -/

/-- The text of a block up to the name in its closing tag. -/
def untilClosingName (name body : String) : String := openTag name ++ body ++ "\x7b\x7b/"

/-- The error of a block whose closing tag is refused behind what it has in `common`. -/
theorem parseWithin_of_stops {common post : List Char} {label : Label} (ha : IsName a)
    (helse : a ≠ "else") (hbody : Enclosable limit body block)
    (hsplit : b.toList ++ Output.escaped.closing = common ++ post)
    (hclose : Stops (Grammar.closingTag a) (closingText b .none ++ []) ⟨post.length, label⟩) :
    parseWithin (limit + 1) (openTag a ++ body ++ closeTag b) =
      .error (.unexpected (.after ((untilClosingName a body).toList ++ common)) [label.text]) := by
  have hlast : post.length ≤ (b.toList ++ (Output.escaped.closing ++ [])).length := by
    rw [List.append_nil, hsplit, List.length_append]
    omega
  have hnode := stops_node_openTag ha helse hbody hlast hclose
  have htags : (openTag a ++ body ++ closeTag b).toList =
      (openTag a).toList ++ (body.toList ++ (closingText b .none ++ [])) := by
    simp [toList_closeTag]
  have htext : (openTag a ++ body ++ closeTag b).toList =
      (untilClosingName a body).toList ++ common ++ post := by
    rw [List.append_assoc, ← hsplit]
    simp [untilClosingName, closeTag, Output.closing]
  rw [← htags, htext] at hnode
  rw [parseWithin, htext]
  exact parseChars_of_stops (by simp [untilClosingName]) hnode

/-- A block whose closing tag has another name is no template, whatever its body. The error is at
that name, where the name of the block was expected; but if the other name starts with it, behind
what they have in common, where the closing braces were. -/
theorem parseWithin_mismatched (ha : IsName a) (helse : a ≠ "else") (hb : IsName b) (hab : a ≠ b)
    (hbody : Enclosable limit body block) :
    (¬ a.toList <+: b.toList →
      parseWithin (limit + 1) (openTag a ++ body ++ closeTag b) =
        .error (.unexpected (.after (untilClosingName a body).toList)
          ["closing tag `\x7b\x7b/" ++ a ++ "\x7d\x7d`"])) ∧
    (a.toList <+: b.toList →
      parseWithin (limit + 1) (openTag a ++ body ++ closeTag b) =
        .error (.unexpected (.after (untilClosingName a body ++ a).toList) ["`\x7d\x7d`"])) ∧
    (Position.after (untilClosingName a body).toList).offset =
      (untilClosingName a body).utf8ByteSize ∧
    (Position.after (untilClosingName a body ++ a).toList).offset =
      (untilClosingName a body).utf8ByteSize + a.utf8ByteSize := by
  refine ⟨fun hprefix => ?_, fun ⟨x, hx⟩ => ?_, ?_, ?_⟩
  · have herror := parseWithin_of_stops ha helse hbody (List.nil_append _).symm
      (stops_closingTag_name ha hprefix)
    rwa [List.append_nil] at herror
  · have hne : x ≠ [] := by
      rintro rfl
      exact hab (String.toList_inj.1 (by simpa using hx))
    have hsplit : b.toList ++ Output.escaped.closing =
        a.toList ++ (x ++ Output.escaped.closing) := by
      rw [← hx, List.append_assoc]
    rw [String.toList_append]
    exact parseWithin_of_stops ha helse hbody hsplit (stops_closingTag_brace hb hx hne)
  · rw [Position.after, Position.byteLength_eq, String.ofList_toList]
  · rw [Position.after, Position.byteLength_eq, String.ofList_toList, String.utf8ByteSize_append]

/-- A block in the body is closed by its own tag; the tag behind it has another name, or one that
only starts with the name of the block. -/
theorem parseWithin_mismatched_if :
    IsName "if" ∧ "if" ≠ "else" ∧ Enclosable 1 choiceText choice ∧
    parseWithin 2 (openTag "if" ++ choiceText ++ closeTag "each") =
      .error (.unexpected (.after (untilClosingName "if" choiceText).toList)
        ["closing tag `\x7b\x7b/" ++ "if" ++ "\x7d\x7d`"]) ∧
    parseWithin 2 (openTag "if" ++ choiceText ++ closeTag "iffy") =
      .error (.unexpected (.after (untilClosingName "if" choiceText ++ "if").toList)
        ["`\x7d\x7d`"]) := by
  refine ⟨by decide, by decide, enclosable_choiceText, ?_, ?_⟩
  · exact (parseWithin_mismatched (by decide) (by decide) (by decide) (by decide)
      enclosable_choiceText).1 (by decide)
  · exact (parseWithin_mismatched (by decide) (by decide) (by decide) (by decide)
      enclosable_choiceText).2.1 (by decide)

end BraceTemplate
