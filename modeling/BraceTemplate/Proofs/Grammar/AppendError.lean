import BraceTemplate.Proofs.Grammar.Append
import BraceTemplate.Proofs.Grammar.ErrorPlace
import BraceTemplate.Proofs.Grammar.TagMisses
import Mathlib

/-!
# A text behind a template

Behind a template a text is read as it is read alone. The nodes of the template come first, and
what is missed on the way through them lies before their end, where it does not show beside what
the text behind misses. So the text behind has the error that it has alone, only further on.
-/

namespace BraceTemplate

open Rule

variable {rest s w : List Char} {k : Nat} {m : Miss} {b : Block}

/-! ## Text before a text -/

/-- Where text is read, no other rule has been tried. -/
theorem misses_of_reads_content {rInner : Rule (List Param)} {rBody : Rule Block} {n : Node}
    (h : Reads Grammar.content s n rest) : (Grammar.node rInner rBody s).misses = [] := by
  refine List.eq_nil_iff_forall_not_mem.2 fun m hm => ?_
  rcases mem_misses_orElse.1 hm with hm | ⟨hrefuses, -⟩
  · exact silent_content.not_mem hm
  · exact h.not_refuses hrefuses

/-- Text at the start is one node, and nothing is missed before it. -/
theorem items_of_reads_content {n : Node} (h : Reads Grammar.content s n rest) :
    Grammar.items k s =
      ⟨(Grammar.items k rest).outcome.map (n :: ·), (Grammar.items k rest).misses⟩ := by
  have hnode : Reads (Grammar.node (Grammar.innerParams k) (Grammar.blockBody k)) s n rest :=
    reads_firstOf_cons.2 (.inl h)
  rw [Grammar.items, many_of_reads hnode (advances_content.consumes h),
    misses_of_reads_content h]
  rfl

/-- The nodes of `b` are read from `w`, whatever is read behind, and nothing is missed on the way
from there on. -/
def ReadsBefore (k : Nat) (b : Block) (w rest : List Char) : Prop :=
  ∃ ms, (∀ m ∈ ms, rest.length < m.left) ∧ Grammar.items k (w ++ rest) =
    ⟨(Grammar.items k rest).outcome.map b.join, ms ++ (Grammar.items k rest).misses⟩

theorem not_content_of_reads {n : Node} (hc : Refuses Grammar.content s)
    (h : Reads (Grammar.node (Grammar.innerParams k) (Grammar.blockBody k)) s n rest)
    (t : String) : n ≠ .content t := by
  rcases written_of_reads_node (formsBehindName_innerParams k) (formsBody_blockBody k) h with
    hread | ⟨-, w, hw, -⟩
  · exact (hread.not_refuses hc).elim
  · rintro rfl
    cases hw

theorem join_of_not_content {t : String} {b : Block} (h : ∀ t', b.head? ≠ some (.content t')) :
    Block.join [.content t] b = .content t :: b := by
  cases b with
  | nil => rfl
  | cons n b =>
    cases n with
    | content t' => exact (h t' rfl).elim
    | _ => rfl

/-- Text before a text: where the two meet text is one node with text. -/
theorem readsBefore_content {t : String} (ht : IsContent t) (hseam : Seam t.toList rest) :
    ReadsBefore k [.content t] t.toList rest := by
  refine ⟨[], nofun, ?_⟩
  rcases hc : (Grammar.content rest).outcome with ⟨n, mid⟩ | _ | left
  · obtain ⟨t', rfl, ht', rfl, hmid⟩ := content_of_reads hc
    have hseam' : Seam t.toList t'.toList := by
      refine fun ⟨hlast, hhead⟩ => hseam ⟨hlast, ?_⟩
      simp [List.head?_append, hhead]
    have hboth : Reads Grammar.content ((t ++ t').toList ++ mid) (.content (t ++ t')) mid := by
      refine reads_content (ht.append ht' hseam') (hmid.imp_right fun h => ⟨?_, h.2⟩)
      rw [String.toList_append, List.getLast?_append,
        Option.or_of_isSome (List.getLast?_isSome.2 ht'.1)]
      exact h.1
    rw [String.toList_append, List.append_assoc] at hboth
    rw [items_of_reads_content hboth, items_of_reads_content hc, Outcome.map_map]
    rfl
  · have hnext : rest = [] ∨ ∃ u, rest = Output.escaped.opening ++ u := by
      by_cases hne : rest = []
      · exact .inl hne
      · exact .inr (opening_of_refuses_content hc hne)
    have hread : Reads Grammar.content (t.toList ++ rest) (.content t) rest := by
      refine reads_content ht (hnext.imp_right fun ⟨u, hu⟩ => ⟨?_, u, hu⟩)
      rw [hu] at hseam
      exact hseam.getLast?_ne
    rw [items_of_reads_content hread, List.nil_append]
    congr 1
    refine Outcome.map_congr fun b r hb => (join_of_not_content fun t' hhead => ?_).symm
    cases b with
    | nil => cases hhead
    | cons n b =>
      cases hhead
      obtain ⟨mid, hn, -⟩ := reads_many_cons.1 (show Reads (Grammar.items k) rest _ r from hb)
      exact not_content_of_reads hc hn t' rfl
  · rw [content_eq] at hc
    split at hc <;> cases hc

/-! ## Tags before a text -/

/-- The nodes of the body of a block are read without a miss behind the tag that ends it. -/
def BodyBefore (k : Nat) : Prop := MissesBefore (Grammar.blockBody k) (BodyText k)

theorem items_of_tagText (hbody : BodyBefore k) {n : Node}
    (h : TagText (InnerText k) (BodyText k) n w) (rest : List Char) :
    ∃ ms, (∀ m ∈ ms, rest.length < m.left) ∧ Grammar.items k (w ++ rest) =
      ⟨(Grammar.items k rest).outcome.map (n :: ·), ms ++ (Grammar.items k rest).misses⟩ := by
  have hread : Reads (Grammar.node (Grammar.innerParams k) (Grammar.blockBody k)) (w ++ rest) n
      rest := reads_node_tag (readsBehindName_innerParams k) (readsBody_blockBody k) h
  refine ⟨_, fun m hm => ?_, many_of_reads hread (length_lt_of_tagText h)⟩
  exact h.before_node (fun _ => stays_innerParams k) (tidy_innerText k)
    (readsBehindName_innerParams k) (readsBody_blockBody k) hbody hm

/-- A tag before nodes that are read. -/
theorem ReadsBefore.tag (hbody : BodyBefore k) {n : Node} {v : List Char}
    (h : TagText (InnerText k) (BodyText k) n w) (hb : ReadsBefore k b v rest) :
    ReadsBefore k (n :: b) (w ++ v) rest := by
  obtain ⟨ms, hms, hv⟩ := hb
  obtain ⟨ms', hms', hw⟩ := items_of_tagText hbody h (v ++ rest)
  refine ⟨ms' ++ ms, fun m hm => ?_, ?_⟩
  · rcases List.mem_append.1 hm with hm | hm
    · have hlt := hms' m hm
      rw [List.length_append] at hlt
      omega
    · exact hms m hm
  · have hjoin : Block.join (n :: b) = (n :: ·) ∘ Block.join b := funext fun b' => h.join b b'
    rw [List.append_assoc, hw, hv, Outcome.map_map, hjoin, List.append_assoc]

/-- Text before a tag. -/
theorem ReadsBefore.contentTag {t : String} {n : Node} {v : List Char} (ht : IsContent t)
    (hlast : t.toList.getLast? ≠ some '{') (h : TagText (InnerText k) (BodyText k) n w)
    (hb : ReadsBefore k (n :: b) (w ++ v) rest) :
    ReadsBefore k (.content t :: n :: b) (t.toList ++ w ++ v) rest := by
  obtain ⟨ms, hms, hv⟩ := hb
  obtain ⟨u, hu⟩ := opening_of_tagText h
  have hread : Reads Grammar.content (t.toList ++ (w ++ v ++ rest)) (.content t)
      (w ++ v ++ rest) := by
    refine reads_content ht (.inr ⟨hlast, u ++ (v ++ rest), ?_⟩)
    rw [hu]
    simp only [List.append_assoc]
  refine ⟨ms, hms, ?_⟩
  have hjoin : Block.join (.content t :: n :: b) = (.content t :: ·) ∘ Block.join (n :: b) := rfl
  rw [List.append_assoc t.toList, List.append_assoc t.toList, items_of_reads_content hread, hv,
    Outcome.map_map, hjoin]

/-- A template is read before any text that it does not run into. -/
theorem Written.readsBefore (hbody : BodyBefore k) (h : Written k b w) (hseam : Seam w rest) :
    ReadsBefore k b w rest := by
  induction h with
  | nil =>
    refine ⟨[], nofun, ?_⟩
    have hid : Outcome.map (Block.join []) (Grammar.items k rest).outcome =
        (Grammar.items k rest).outcome := by
      cases (Grammar.items k rest).outcome <;> rfl
    rw [hid]
    rfl
  | content ht => exact readsBefore_content ht hseam
  | contentTag ht hlast hw _ ih =>
    rw [List.append_assoc] at hseam
    exact ((ih hseam.of_append.of_append).tag hbody hw).contentTag ht hlast hw
  | tag hw _ ih => exact (ih hseam.of_append).tag hbody hw

/-- With one level more a body is read like a template, up to the tag that ends it. -/
theorem bodyBefore (k : Nat) : BodyBefore k := by
  induction k with
  | zero => exact fun _ _ _ _ _ h => h.elim
  | succ k ih =>
    intro b u rest s m hu hs hin hm
    obtain ⟨hw, hlast⟩ := hu
    have hbefore : ReadsBefore k b u s := Written.readsBefore ih hw fun h => hlast h.1
    obtain ⟨ms, hms, heq⟩ := hbefore
    have hm : m ∈ (Grammar.items k (u ++ s)).misses := hm
    rw [heq, List.mem_append] at hm
    rcases hm with hm | hm
    · exact Nat.lt_trans hin.length_lt (hms m hm)
    · have hrefuses : Refuses (Grammar.node (Grammar.innerParams k) (Grammar.blockBody k)) s :=
        hs.refuses_node
      rw [Grammar.items, many_of_refuses hrefuses] at hm
      exact hs.before_node (stays_innerParams k) hin hm

/-! ## Errors behind a template -/

def ParseError.movedTo (p : Position) : ParseError → ParseError
  | unexpected _ expected => unexpected p expected
  | tooDeep _ limit => tooDeep p limit

/-- The furthest misses in a text that stops are the furthest behind a template as well. -/
theorem furthest_append {limit : Nat} {b' : Block} {r : List Char} (hw : ReadsBefore limit b w s)
    (hs : Reads (Grammar.items limit) s b' r) (hne : r ≠ []) :
    furthest limit (w ++ s) = (furthest limit s).behind w.length := by
  obtain ⟨ms, hms, heq⟩ := hw
  have honward := onward_items limit
  rw [furthest, heq, List.length_append]
  refine Furthest.ofMisses_append (fun m hm => ⟨hms m hm, ?_⟩) (fun m hm => honward.misses hm) ?_
  · have hin : m ∈ (Grammar.items limit (w ++ s)).misses := by
      rw [heq]
      exact List.mem_append_left _ hm
    rw [← List.length_append]
    exact honward.misses hin
  · obtain ⟨u, rfl, m, hm, -⟩ := exists_miss_of_reads_items hs hne
    exact List.ne_nil_of_mem hm

/-- A text behind a template has the error that it has alone, as far behind the template as it is
behind the start of the text. -/
theorem parseChars_append_error {limit : Nat} {e : ParseError} (hw : Written limit b w)
    (hseam : Seam w s) (he : parseChars limit s = .error e) :
    ∃ pre post, s = pre ++ post ∧ e.position = .after pre ∧
      parseChars limit (w ++ s) = .error (e.movedTo (.after (w ++ pre))) := by
  have hbefore := hw.readsBefore (bodyBefore limit) hseam
  have ⟨_, _, heq⟩ := hbefore
  have hsplit : ∀ n, s = s.take n ++ s.drop n := fun n => (List.take_append_drop n s).symm
  rcases stopped_or_tooDeep he with ⟨b', r, hs, hne⟩ | ⟨left, hdeep⟩
  · obtain rfl : ParseError.unexpected _ _ = e :=
      Except.error.inj ((parseChars_of_stopped hs hne).symm.trans he)
    have hboth : Reads (Grammar.items limit) (w ++ s) (Block.join b b') r := by
      rw [Reads, heq, show (Grammar.items limit s).outcome = .ok b' r from hs]
      rfl
    refine ⟨_, _, hsplit (furthest limit s).offset, rfl, ?_⟩
    rw [parseChars_of_stopped hboth hne, furthest_append hbefore hs hne]
    simp only [Furthest.behind, List.take_length_add_append]
    rfl
  · obtain rfl : ParseError.tooDeep _ _ = e :=
      Except.error.inj ((parseChars_of_tooDeep hdeep).symm.trans he)
    have hboth : (Grammar.items limit (w ++ s)).outcome = .tooDeep left := by
      rw [heq, hdeep]
      rfl
    have hleft : left ≤ s.length := (onward_items limit).tooDeep hdeep
    have hplace : (w ++ s).length - left = w.length + (s.length - left) := by
      rw [List.length_append]
      omega
    refine ⟨_, _, hsplit (s.length - left), rfl, ?_⟩
    rw [parseChars_of_tooDeep hboth, positionLeft, hplace, List.take_length_add_append]
    rfl

/-- Behind a template another template adds its nodes, and a text that is none has the error that
it has alone: of the same kind, with the same tokens expected, and at the place in the whole text
that is as many bytes further on as the template has. -/
theorem parseWithin_behind {limit : Nat} {t t' : String} {b : Block}
    (h : parseWithin limit t = .ok b) (hseam : Seam t.toList t'.toList) :
    (∀ b', parseWithin limit t' = .ok b' → parseWithin limit (t ++ t') = .ok (b.join b')) ∧
    ∀ e, parseWithin limit t' = .error e →
      ∃ pre post, t'.toList = pre ++ post ∧ e.position = .after pre ∧
        parseWithin limit (t ++ t') = .error (e.movedTo (.after (t.toList ++ pre))) ∧
        (Position.after (t.toList ++ pre)).offset =
          Position.byteLength t.toList + e.position.offset := by
  refine ⟨fun b' h' => parseWithin_append h h' hseam, fun e he => ?_⟩
  obtain ⟨pre, post, hpre, hplace, hboth⟩ :=
    parseChars_append_error (parseChars_eq_ok_iff.1 h) hseam he
  refine ⟨pre, post, hpre, hplace, ?_, ?_⟩
  · rw [parseWithin, String.toList_append]
    exact hboth
  · rw [hplace]
    exact Position.byteLength_append _ _

theorem parseWithin_behind_openTag :
    parseWithin 1 "é\x7b\x7ba\x7d\x7d" = .ok [.content "é", .reference .escaped "a" .none] ∧
    ∃ pre, parseWithin 1 ("é\x7b\x7ba\x7d\x7d" ++ "\n\x7b\x7bx") =
        .error (.unexpected (.after ("é\x7b\x7ba\x7d\x7d".toList ++ pre))
          ["`\x7d\x7d`", "identifier"]) ∧
      (Position.after ("é\x7b\x7ba\x7d\x7d".toList ++ pre)).offset = 7 + 4 := by
  have h : parseWithin 1 "é\x7b\x7ba\x7d\x7d" =
      .ok [.content "é", .reference .escaped "a" .none] := by cbv
  have he : parseWithin 1 "\n\x7b\x7bx" =
      .error (.unexpected ⟨4, 2, 4⟩ ["`\x7d\x7d`", "identifier"]) := by cbv
  have hseam : Seam "é\x7b\x7ba\x7d\x7d".toList "\n\x7b\x7bx".toList := by
    unfold Seam
    decide
  obtain ⟨pre, -, -, -, hboth, hoffset⟩ := (parseWithin_behind h hseam).2 _ he
  exact ⟨h, pre, hboth, hoffset⟩

end BraceTemplate
