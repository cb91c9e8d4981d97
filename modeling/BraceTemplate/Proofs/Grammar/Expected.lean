import BraceTemplate.Proofs.Grammar.Append
import BraceTemplate.Proofs.Grammar.Awaited.Blocks
import BraceTemplate.Proofs.Grammar.ErrorPlace
import BraceTemplate.Proofs.Grammar.Refusal

/-!
# What a syntax error expects

The tokens that a syntax error expects are those missed at its place. With any of them there, but
for the braces at the end of a tag, the text is a template or goes wrong further on: a rule that
runs out of text misses something at its end. With the braces the same is true, unless blocks are
open, whose closing tags are nowhere missed, or the last word before them is `else`. An induction on
the number of levels carries this from the rules for tags to whole texts.
-/

namespace BraceTemplate

open Rule

variable {s x u w b : List Char} {rInner : Rule (List Param)} {rBody : Rule Block}
variable {inner : List Param → List Char → Prop} {body : Block → List Char → Prop}
variable {l : Bool} {limit : Nat}

/-! ## Where a node is refused -/

theorem exists_of_closesTag (h : closesTag s = true) :
    ∃ b r x, Blanks b ∧ s = b ++ (mark r ++ (Output.escaped.closing ++ x)) := by
  have hblanks : Blanks (s.takeWhile isBlank) := List.all_eq_true.1 List.all_takeWhile
  have hs : s = s.takeWhile isBlank ++ skipBlanks s := List.takeWhile_append_dropWhile.symm
  replace h : (stripPrefix Output.escaped.closing
      ((stripPrefix ['~'] (skipBlanks s)).getD (skipBlanks s))).isSome = true := h
  rcases htilde : stripPrefix ['~'] (skipBlanks s) with _ | t
  · rw [htilde] at h
    obtain ⟨x, hx⟩ := Option.isSome_iff_exists.1 h
    have hclosing : skipBlanks s = Output.escaped.closing ++ x := stripPrefix_eq_some.1 hx
    exact ⟨_, false, x, hblanks, hs.trans (congrArg _ hclosing)⟩
  · rw [htilde] at h
    obtain ⟨x, hx⟩ := Option.isSome_iff_exists.1 h
    have ht : skipBlanks s = ['~'] ++ t := stripPrefix_eq_some.1 htilde
    rw [show t = _ from stripPrefix_eq_some.1 hx] at ht
    exact ⟨_, true, x, hblanks, hs.trans (congrArg _ ht)⟩

/-- Where a block ends, nothing is missed at the end of the text. -/
theorem not_endsBlock_of_missesEnd (hi : ∀ r, Stays r rInner)
    (h : MissesEnd (Grammar.node rInner rBody) x) : ¬ EndsBlock x := by
  rintro hend
  obtain ⟨m, hm, hleft⟩ := h
  obtain ⟨l, t, rfl, ht, hslash | helse⟩ := id hend
  · cases t with
    | nil => cases hslash
    | cons c t =>
      obtain rfl : c = '/' := by simpa using hslash
      have hslash := left_of_mem_misses_slash (s := t) hm
      simp [hleft] at hslash
  · obtain ⟨t', ht', hclose⟩ := closesElse_eq_true.1 helse
    obtain ⟨b, r, x, hb, rfl⟩ := exists_of_closesTag hclose
    have hsplit : t = t.takeWhile isBlank ++ skipBlanks t :=
      List.takeWhile_append_dropWhile.symm
    have hin : InTag x (Output.escaped.opening ++ (mark l ++ t)) := by
      rw [hsplit, ht']
      exact inTag_else (List.all_eq_true.1 List.all_takeWhile) hb x
    have hlt := hend.before_node (hi x) hin hm
    omega

/-- At the word `else` the end of a tag is missed. -/
theorem starves_node_else {g : List Char} (hg : Blanks g) : Starves (Grammar.node rInner rBody)
    (Output.escaped.opening ++ (mark l ++ (g ++ elseWord))) := by
  have hname : IsName "else" := by decide
  have hword : headIs isNameChar (elseWord ++ []) = true := rfl
  have htilde : headIs (· = '~') (g ++ elseWord) = false := (notBlank_eq rfl).headIs hg rfl
  have hblanks : Reads Grammar.blanks (g ++ elseWord) () elseWord :=
    reads_blanks.2 ⟨g, hg, rfl, rfl⟩
  have hraw : Refuses (Grammar.literal Output.raw.opening)
      (Output.escaped.opening ++ (mark l ++ (g ++ elseWord))) := refuses_raw_name hg rfl
  have hreference : Starves (Grammar.reference .escaped)
      (Output.escaped.opening ++ (mark l ++ (g ++ elseWord))) := by
    have hpath : Reads Grammar.path elseWord "else" [] :=
      reads_path (IsPath.of_isName hname) rfl (by decide)
    exact starves_tagHead htilde (.seq hblanks (.bind hpath starves_tagEnd))
  have hhelper : Refuses (Grammar.helper rInner .escaped)
      (Output.escaped.opening ++ (mark l ++ (g ++ elseWord))) := by
    refine refuses_tagHead htilde (hblanks.seq_refuses (Reads.bind_refuses (a := "else") (m := [])
      (reads_name hname rfl (by decide)) ?_))
    refine Reads.bind_refuses (reads_parametersAfter_nil ?_) starves_tagEnd.refuses
    exact refuses_blanks_bind starves_parameter.refuses.bind
  refine .firstOf [_] [_, _, _, _, _, _] ?_ hreference ?_
  · simpa using refuses_content .escaped _
  · simp only [List.mem_cons, List.not_mem_nil, or_false, forall_eq_or_imp, forall_eq]
    exact ⟨hraw.bind, hhelper, hraw.bind,
      refuses_partialTag htilde ((notBlank_eq rfl).headIs hg rfl),
      refuses_hash l rInner rBody htilde ((notBlank_eq rfl).headIs hg rfl)⟩

/-! ## Levels -/

section
variable {p : Rule Node} {as : List Node}

theorem stuck_many (h : Reads (Rule.many p) s as x) (hmisses : MissesEnd p x)
    (hend : ¬ EndsBlock x) : Stuck (Rule.many p) s := by
  obtain ⟨m, hm, hleft⟩ := hmisses
  exact .inl ⟨as, x, h, ⟨m, (refuses_of_reads_many h).2 m hm, hleft⟩, hend⟩

theorem Stuck.many_round {n : Node} (hp : Reads p s n x) (hlt : x.length < s.length)
    (h : Stuck (Rule.many p) x) : Stuck (Rule.many p) s := by
  rcases h with ⟨as, rest, hread, hmisses, hend⟩ | hdeep
  · exact .inl ⟨n :: as, rest, hp.many hlt hread, hmisses.many hp hlt, hend⟩
  · exact .inr (by rw [many_of_reads hp hlt, hdeep]; rfl)

end

section
variable (hstays : ∀ r, Stays r rInner) (hi : ReadsBehindName rInner inner)
variable (hforms : FormsBehindName rInner inner) (ha : AwaitsInner rInner)
variable (hbody : AwaitsBody rBody body)

/-- The texts of blocks that end in a tag. -/
def EndsInTag (inner : List Param → List Char → Prop) (body : Block → List Char → Prop)
    (y : List Char) : Prop :=
  (∃ n, BlockText (TagText inner body) n y) ∧ y.getLast? = some '}'

/-- What is known of a token that is missed in the nodes of a block behind `b`. -/
def AwaitedInBlock (rInner : Rule (List Param)) (rBody : Rule Block)
    (inner : List Param → List Char → Prop) (body : Block → List Char → Prop)
    (b w : List Char) : Prop :=
  2 ≤ b.length ∧ Resolved (Stuck (Rule.many (Grammar.node rInner rBody)) (b ++ w))
    (EndsInTag inner body) w (b ++ w)

include hstays in
theorem AwaitedInNode.inBlock (h : AwaitedInNode rInner rBody inner body b w) :
    AwaitedInBlock rInner rBody inner body b w := by
  obtain ⟨⟨u, rfl⟩, h⟩ := h
  refine ⟨by simp [Output.opening], ?_⟩
  cases h with
  | further h =>
    rcases h with hstarves | hdeep
    · exact .further (stuck_many hstarves.refuses.many hstarves.missesEnd
        (not_endsBlock_of_missesEnd hstays hstarves.missesEnd))
    · exact .further (.inr (congrArg Reply.outcome (many_of_tooDeep hdeep)))
  | closed names hw h =>
    obtain ⟨n, h⟩ := h
    refine .closed names hw ⟨⟨[n], ?_⟩, getLast?_tagText h⟩
    simpa using BlockText.tag h .nil
  | vetoed hw h => exact .vetoed hw h

omit hstays hi hforms ha hbody in
/-- What is known behind a node is known of the text with that node, too. -/
theorem Resolved.round {n : Node} (hread : Reads (Grammar.node rInner rBody) (u ++ x) n x)
    (hne : u ≠ []) (hT : ∀ names, EndsInTag inner body (x ++ closings names) →
      EndsInTag inner body (u ++ (x ++ closings names)))
    (h : Resolved (Stuck (Rule.many (Grammar.node rInner rBody)) x) (EndsInTag inner body) w x) :
    Resolved (Stuck (Rule.many (Grammar.node rInner rBody)) (u ++ x)) (EndsInTag inner body) w
      (u ++ x) := by
  have hlt : x.length < (u ++ x).length := by
    have := List.length_pos_iff.2 hne
    simp only [List.length_append]
    omega
  cases h with
  | further h => exact .further (h.many_round hread hlt)
  | closed names hw h => exact .closed names hw (by simpa using hT names h)
  | vetoed hw h => exact .vetoed hw h.append_left

include hi hforms hbody in
theorem AwaitedInBlock.round {n : Node} {c : List Char}
    (hread : Reads (Grammar.node rInner rBody) s n (b ++ c))
    (h : AwaitedInBlock rInner rBody inner body b w) :
    ∃ u, s = u ++ (b ++ c) ∧ AwaitedInBlock rInner rBody inner body (u ++ b) w := by
  obtain ⟨hlength, h⟩ := h
  rcases written_of_reads_node hforms hbody.forms hread with hcontent | ⟨-, v, hv, rfl⟩
  · obtain ⟨t, rfl, ht, rfl, hnext⟩ := content_of_reads hcontent
    have hne : b ++ c ≠ [] := by
      rintro hnil
      simp [List.append_eq_nil_iff.1 hnil] at hlength
    -- What comes behind the text opens a tag, and it still does when it is cut off at the miss.
    obtain ⟨hlast, v, hopening⟩ := hnext.resolve_left hne
    obtain ⟨b', rfl⟩ : ∃ b', b = Output.escaped.opening ++ b' := by
      obtain ⟨b', hb'⟩ := List.prefix_of_prefix_length_le ⟨v, hopening.symm⟩
        (List.prefix_append b c) hlength
      exact ⟨b', hb'.symm⟩
    refine ⟨t.toList, rfl, by simp only [List.length_append] at hlength ⊢; omega, ?_⟩
    rw [List.append_assoc]
    refine h.round (n := .content t) (reads_firstOf_cons.2 (.inl ?_)) ht.1 fun names hy => ?_
    · exact reads_content ht (.inr ⟨hlast, _, List.append_assoc _ _ _⟩)
    · obtain ⟨⟨n, hn⟩, hbrace⟩ := hy
      refine ⟨⟨_, hn.content_append ht fun hseam => hlast hseam.1⟩, ?_⟩
      rw [List.getLast?_append, hbrace]
      rfl
  · refine ⟨v, rfl, by simp only [List.length_append]; omega, ?_⟩
    rw [List.append_assoc]
    refine h.round (n := n) (reads_node_tag hi hbody.reads hv) ?_ fun names hy => ?_
    · obtain ⟨z, rfl⟩ := opening_of_tagText hv
      simp [Output.opening]
    · obtain ⟨⟨n, hn⟩, hbrace⟩ := hy
      refine ⟨⟨_, .tag hv hn⟩, ?_⟩
      rw [List.getLast?_append, hbrace]
      rfl

include hstays hi hforms ha hbody in
theorem awaits_many (s : List Char) : Awaits (AwaitedInBlock rInner rBody inner body)
    (Rule.many (Grammar.node rInner rBody)) s :=
  .many (fun s => (awaits_node hi hforms ha hbody s).mono fun _ _ h => h.inBlock hstays)
    fun _ _ _ _ _ hread _ h => h.round hi hforms hbody hread

include hstays hi hbody in
theorem stuck_many_else {n : Block} {g : List Char} (hu : BlockText (TagText inner body) n u)
    (hlast : u.getLast? ≠ some '{') (hg : Blanks g) :
    Stuck (Rule.many (Grammar.node rInner rBody))
      (u ++ (Output.escaped.opening ++ (mark l ++ (g ++ elseWord)))) := by
  have hstarves : Starves (Grammar.node rInner rBody)
    (Output.escaped.opening ++ (mark l ++ (g ++ elseWord))) := starves_node_else hg
  exact stuck_many (reads_blockText_of_refuses hi hbody.reads hu hstarves.refuses
    (.inr ⟨hlast, _, rfl⟩)) hstarves.missesEnd
    (not_endsBlock_of_missesEnd hstays hstarves.missesEnd)

end

/-- What holds of the bodies on one level holds on the next. -/
theorem awaitsBody_blockBody (k : Nat) : AwaitsBody (Grammar.blockBody k) (BodyText k) := by
  induction k with
  | zero =>
    exact ⟨readsBody_blockBody 0, formsBody_blockBody 0, .inr rfl, fun h => h.elim,
      fun s => Silent.awaits fun _ => rfl⟩
  | succ k ih =>
    have hi := readsBehindName_innerParams k
    have hstays : ∀ r, Stays r (Grammar.innerParams k) := fun _ => stays_innerParams k
    refine ⟨readsBody_blockBody (k + 1), formsBody_blockBody (k + 1), .inl ⟨.nil, by simp⟩,
      fun h hg => stuck_many_else hstays hi ih h.1 h.2 hg, fun s => ?_⟩
    refine (awaits_many hstays hi (formsBehindName_innerParams k) (awaitsInner_innerParams k) ih
      s).mono fun b w h => h.2.imp id ?_
    rintro names ⟨⟨n, hn⟩, hbrace⟩
    refine ⟨n, hn, fun h => ?_⟩
    rw [hbrace] at h
    cases h

/-- A token that is missed on the way through a text leads on, or is the end of a tag. -/
theorem awaits_items (k : Nat) (s : List Char) :
    Awaits (fun b w => Resolved (Stuck (Grammar.items k) (b ++ w))
      (fun y => ∃ n, parseChars k y = .ok n) w (b ++ w)) (Grammar.items k) s := by
  refine (awaits_many (fun _ => stays_innerParams k) (readsBehindName_innerParams k)
    (formsBehindName_innerParams k) (awaitsInner_innerParams k) (awaitsBody_blockBody k)
    s).mono fun b w h => h.2.imp id ?_
  rintro names ⟨⟨n, hn⟩, -⟩
  exact ⟨n, parseChars_of_written hn⟩

/-! ## Errors -/

/-- The text is a template, or it goes wrong behind the place. -/
def GoesFurther (limit : Nat) (position : Position) (text : String) : Prop :=
  ∀ e, parseWithin limit text = .error e → position.offset < e.position.offset

theorem Position.byteLength_lt_append (hw : w ≠ []) (u : List Char) :
    byteLength u < byteLength (u ++ w) := by
  obtain ⟨c, w, rfl⟩ := List.exists_cons_of_ne_nil hw
  have hc := c.utf8Size_pos
  rw [byteLength_append, byteLength]
  omega

/-- Where a text gets stuck, its error is at the end. -/
theorem position_of_stuck {e : ParseError} (h : Stuck (Grammar.items limit) x)
    (he : parseChars limit x = .error e) : e.position = .after x := by
  rcases h with ⟨n, rest, hread, ⟨m, hm, hleft⟩, -⟩ | hdeep
  · have hne : rest ≠ [] := by
      rintro rfl
      rw [parseChars_of_reads hread] at he
      cases he
    have hplace : x.length - m.left ≤ (furthest limit x).offset := Furthest.le_ofMisses _ hm
    rw [parseChars_of_stopped hread hne] at he
    obtain rfl := Except.error.inj he
    show Position.after _ = _
    rw [List.take_of_length_le (by omega)]
  · rw [parseChars_of_tooDeep hdeep] at he
    obtain rfl := Except.error.inj he
    show Position.after (x.take (x.length - 0)) = _
    rw [Nat.sub_zero, List.take_length]

theorem goesFurther_of_stuck (hw : w ≠ []) (h : Stuck (Grammar.items limit) (u ++ w)) :
    GoesFurther limit (.after u) (String.ofList (u ++ w)) := by
  intro e he
  rw [parseWithin, String.toList_ofList] at he
  rw [position_of_stuck h he]
  exact Position.byteLength_lt_append hw u

/-- A syntax error expects tokens that lead on: with any of them at the place of the error, in place
of what is there, the text is a template or goes wrong further on. For the braces at the end of a
tag there are two exceptions: blocks stay open, whose closing tags would make the text a template,
or the last word before the braces is `else`. -/
theorem expected_leadsOn {text : String} {position : Position} {expected : List String}
    {label : Label} (h : parseWithin limit text = .error (.unexpected position expected))
    (hlabel : label.text ∈ expected) (hw : label.literal? = some w) :
    ∃ pre post, text.toList = pre ++ post ∧ position = .after pre ∧
      ((∀ output : Output, w ≠ output.closing) →
        GoesFurther limit position (String.ofList (pre ++ w))) ∧
      (∀ output : Output, w = output.closing →
        GoesFurther limit position (String.ofList (pre ++ w)) ∨
        (∃ names block, names ≠ [] ∧
          parseWithin limit (String.ofList (pre ++ w ++ closings names)) = .ok block) ∨
        ElseAtEnd (pre ++ w)) := by
  have hplace : ∃ m ∈ (Grammar.items limit text.toList).misses, m.label = label ∧
      position = .after (text.toList.take (text.toList.length - m.left)) := by
    rcases stopped_or_tooDeep h with ⟨b, rest, hreads, hne⟩ | ⟨left, hdeep⟩
    · have herror := (parseChars_of_stopped hreads hne).symm.trans h
      simp only [Except.error.injEq, ParseError.unexpected.injEq] at herror
      obtain ⟨rfl, rfl⟩ := herror
      obtain ⟨label', hmem, htext⟩ := List.mem_map.1 hlabel
      obtain rfl := Label.text_inj htext
      obtain ⟨m, hm, hlabel, hoffset⟩ := Furthest.exists_of_mem_expected hmem
      exact ⟨m, hm, hlabel, by rw [hoffset]; rfl⟩
    · have herror := (parseChars_of_tooDeep hdeep).symm.trans h
      cases herror
  -- The label is that of a miss, whose place the error names.
  obtain ⟨m, hm, rfl, rfl⟩ := hplace
  obtain ⟨b, c, hsplit, hleft, hne, hb⟩ := awaits_items limit _ m hm w hw
  have hpre : text.toList.take (text.toList.length - m.left) = b := by
    rw [hsplit, hleft, List.length_append, Nat.add_sub_cancel]
    exact List.take_left
  rw [hpre]
  refine ⟨b, c, hsplit, rfl, fun hclosing => ?_, fun output houtput => ?_⟩
  · cases hb with
    | further hb => exact goesFurther_of_stuck hne hb
    | closed names hw => exact (hclosing _ hw).elim
    | vetoed hw => exact (hclosing _ hw).elim
  · cases hb with
    | further hb => exact .inl (goesFurther_of_stuck hne hb)
    | closed names hw hb =>
      obtain ⟨n, hb⟩ := hb
      have hok : parseWithin limit (String.ofList (b ++ w ++ closings names)) = .ok n := by
        rwa [parseWithin, String.toList_ofList]
      by_cases hnames : names = []
      · rw [hnames, closings, List.flatMap_nil, List.append_nil] at hok
        exact .inl fun e he => by cases hok.symm.trans he
      · exact .inr (.inl ⟨names, n, hnames, hok⟩)
    | vetoed hw hb => exact .inr (.inr hb)

/-- A parenthesis that is left open. -/
theorem expected_leadsOn_openCall :
    parseWithin 1 "\x7b\x7bf (g" = .error (.unexpected ⟨6, 1, 7⟩ ["identifier", "`)`"]) ∧
      ∃ pre post, "\x7b\x7bf (g".toList = pre ++ post ∧ ⟨6, 1, 7⟩ = Position.after pre ∧
        GoesFurther 1 ⟨6, 1, 7⟩ (String.ofList (pre ++ [')'])) := by
  have h : parseWithin 1 "\x7b\x7bf (g" =
      .error (.unexpected ⟨6, 1, 7⟩ ["identifier", "`)`"]) := by cbv
  have hlabel : (Label.token [')']).text ∈ ["identifier", "`)`"] := by decide
  obtain ⟨pre, post, htext, hplace, hfurther, -⟩ := expected_leadsOn h hlabel rfl
  exact ⟨h, pre, post, htext, hplace, hfurther fun output => by cases output <;> decide⟩

set_option maxRecDepth 2000 in
/-- Braces that are expected and lead nowhere: behind the word `else`, and behind the name of a
block that stays open, whose error is at its start. -/
theorem exists_expected_not_goesFurther :
    (∃ position expected, parse "\x7b\x7belse" = .error (.unexpected position expected) ∧
      (Label.token Output.escaped.closing).text ∈ expected ∧
        ¬ GoesFurther defaultDepth position ("\x7b\x7belse" ++ "\x7d\x7d")) ∧
    (∃ position expected, parse "\x7b\x7b#f" = .error (.unexpected position expected) ∧
      (Label.token Output.escaped.closing).text ∈ expected ∧
        ¬ GoesFurther defaultDepth position ("\x7b\x7b#f" ++ "\x7d\x7d")) := by
  have helse : parse "\x7b\x7belse" =
      .error (.unexpected ⟨6, 1, 7⟩ ["`\x7d\x7d`", "identifier"]) := by cbv
  have hblock : parse "\x7b\x7b#f" = .error (.unexpected ⟨4, 1, 5⟩ ["`\x7d\x7d`"]) := by cbv
  refine ⟨⟨_, _, helse, by decide, fun h => ?_⟩, ⟨_, _, hblock, by decide, fun h => ?_⟩⟩
  · exact absurd (h (.unexpected ⟨2, 1, 3⟩ ["identifier", "`>`", "`#`"]) (by cbv)) (by decide)
  · exact absurd (h (.unexpected ⟨2, 1, 3⟩ ["identifier", "`>`"]) (by cbv)) (by decide)

end BraceTemplate
