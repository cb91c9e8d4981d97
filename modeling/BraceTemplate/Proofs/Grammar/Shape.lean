import BraceTemplate.Proofs.Grammar.Soundness
import Mathlib

/-!
# The shape of templates that are read

Not every tree is read from a text: text is not empty, a subexpression is never escaped, a block
helper has markers and an inline call has none. `Node.Shaped` lists the seven forms that the nodes
of a template have at every level, so that a helper or a tool that walks over a template need not
look for others.
-/

namespace BraceTemplate

/-! ## Shapes -/

/-- The two kinds of quote do not both occur. -/
def OneQuote (text : String) : Prop := ¬ ('\x27' ∈ text.toList ∧ '\x22' ∈ text.toList)

/-- A parameter as it is read: a variable, a quoted text, or an inline call without markers. -/
inductive Param.Shaped : Param → Prop
  | path {p : String} : IsPath p → Shaped (.path p)
  | literal {text : String} : OneQuote text → Shaped (.node (.literal text))
  | call {name : String} {params : List Param} : IsName name → (∀ p ∈ params, p.Shaped) →
      Shaped (.node (.helper .raw name params none none .none none))

/-- Text is not directly before other text, and before a tag it does not end in an opening
brace. -/
def Block.TextApart (b : Block) : Prop :=
  ∀ t n, [.content t, n] <:+: b → (∀ u, n ≠ .content u) ∧ t.toList.getLast? ≠ some '{'

/-- The same for a block inside another, where a tag is behind the last node too. -/
structure Block.Enclosed (b : Block) : Prop where
  apart : b.TextApart
  last : ∀ t, b.getLast? = some (.content t) → t.toList.getLast? ≠ some '{'

/-- A node of a block as it is read, with all that is inside it. -/
inductive Node.Shaped : Node → Prop
  | content {t : String} : t ≠ "" → ¬ ['{', '{'] <:+: t.toList → Shaped (.content t)
  | reference {output : Output} {path : String} {trim : Trim} : IsPath path → path ≠ "else" →
      Shaped (.reference output path trim)
  | call {output : Output} {name : String} {params : List Param} {trim : Trim} : IsName name →
      params ≠ [] → (∀ p ∈ params, p.Shaped) → ¬ EndsInElse params →
      Shaped (.helper output name params none none trim none)
  | block {name : String} {params : List Param} {first : Block} {otherwise : Option Block}
      {marks : TrimMarks} : IsName name → (params = [] → name ≠ "else") →
      (∀ p ∈ params, p.Shaped) → ¬ EndsInElse params →
      (∀ b ∈ first :: otherwise.toList, b.Enclosed) →
      (∀ b ∈ first :: otherwise.toList, ∀ n ∈ b, n.Shaped) →
      (otherwise = none → marks.otherwise = .none) →
      Shaped (.helper .raw name params (some first) otherwise .none (some marks))
  | binder {name : String} {params : List Param} {names : List String} {first : Block}
      {otherwise : Option Block} {marks : TrimMarks} : IsName name → params ≠ [] →
      (∀ p ∈ params, p.Shaped) → names ≠ [] → (∀ x ∈ names, IsName x) →
      (∀ b ∈ first :: otherwise.toList, b.Enclosed) →
      (∀ b ∈ first :: otherwise.toList, ∀ n ∈ b, n.Shaped) → marks.otherwise = .none →
      Shaped (.binder name params names first otherwise marks)
  | plainPartial {name : String} {trim : Trim} : IsWord isPartialNameChar name → name ≠ "else" →
      Shaped (.plainPartial name [] trim)
  | boundPartial {name : String} {args : List Argument} {trim : Trim} :
      IsWord isPartialNameChar name → args ≠ [] → (∀ a ∈ args, IsName a.key ∧ a.value.Shaped) →
      ¬ EndsInElse (args.map Argument.value) → Shaped (.boundPartial name args trim)

structure Block.Shaped (b : Block) : Prop where
  apart : b.TextApart
  nodes : ∀ n ∈ b, n.Shaped

/-! ## What is written has a shape -/

def Ensures {α : Type} (T : α → List Char → Prop) (P : α → Prop) : Prop := ∀ ⦃a w⦄, T a w → P a

variable {inner : List Param → List Char → Prop} {body : Block → List Char → Prop}
variable {w : List Char}

theorem beforeTag_eq_self_iff {s : List Char} :
    Grammar.beforeTag s = s ↔ ¬ ['{', '{'] <:+: s := by
  induction s with
  | nil => simp [Grammar.beforeTag]
  | cons c s ih =>
    have hpre : ['{', '{'] <+: c :: s ↔ c = '{' ∧ headIs (· = '{') s = true := by
      cases s with
      | nil => simp
      | cons d s => simp [List.cons_prefix_cons, eq_comm]
    rw [List.infix_cons_iff, not_or, ← ih, hpre]
    constructor
    · intro h
      obtain ⟨hc, hs⟩ := of_beforeTag_cons h
      refine ⟨fun h => ?_, hs⟩
      have hhead := h.2
      rw [hc h.1] at hhead
      cases hhead
    · rintro ⟨hc, hs⟩
      rw [beforeTag_cons fun hbrace => Bool.eq_false_iff.2 fun hhead => hc ⟨hbrace, hhead⟩, hs]

theorem IsContent.shaped {t : String} (h : IsContent t) : (Node.content t).Shaped := by
  refine .content ?_ (beforeTag_eq_self_iff.1 h.2)
  rintro rfl
  exact h.1 rfl

theorem ParamText.shaped (hi : Ensures inner (∀ p ∈ ·, p.Shaped)) :
    Ensures (ParamText inner) Param.Shaped := by
  intro p w h
  cases h with
  | path hp => exact .path hp
  | literal hq hnot =>
    refine .literal fun hboth => ?_
    rcases hq with rfl | rfl
    · exact hnot hboth.1
    · exact hnot hboth.2
  | call _ hn hw _ => exact .call hn (hi hw)

theorem ArgumentText.shaped (hi : Ensures inner (∀ p ∈ ·, p.Shaped)) :
    Ensures (ArgumentText inner) fun a => IsName a.key ∧ a.value.Shaped := by
  rintro _ _ ⟨hk, -, -, hw⟩
  exact ⟨hk, ParamText.shaped hi hw⟩

theorem Spaced.ensures {α : Type} {T : α → List Char → Prop} {P : α → Prop} {as : List α}
    (hT : Ensures T P) (h : Spaced T as w) : ∀ a ∈ as, P a := by
  intro a ha
  obtain ⟨v, hv⟩ := h.exists_text a ha
  exact hT hv

theorem Trailing.ensures {α : Type} {T : α → List Char → Prop} {P : α → Prop} {as : List α}
    (hT : Ensures T P) (h : Trailing T as w) : ∀ a ∈ as, P a := by
  intro a ha
  obtain ⟨v, hv⟩ := h.exists_text a ha
  exact hT hv

def Block.Inside (b : Block) : Prop := b.Enclosed ∧ ∀ n ∈ b, n.Shaped

/-- The body of a block and its alternative are as they are read. -/
theorem OtherwiseText.inside (hbody : Ensures body Block.Inside) {first : Block}
    {otherwise : Option Block} {t : Trim} {u : List Char} (hu : body first u)
    (h : OtherwiseText body otherwise t w) : ∀ b ∈ first :: otherwise.toList, b.Inside := by
  intro b hb
  cases h with
  | none =>
    obtain rfl : b = first := by simpa using hb
    exact hbody hu
  | @some _ _ _ _ _ second _ _ hv =>
    have hb : b = first ∨ b = second := by simpa using hb
    rcases hb with rfl | rfl
    · exact hbody hu
    · exact hbody hv

theorem TagText.shaped (hi : Ensures inner (∀ p ∈ ·, p.Shaped))
    (hbody : Ensures body Block.Inside) : Ensures (TagText inner body) Node.Shaped := by
  intro n w h
  cases h with
  | reference _ hp he _ => exact .reference hp he
  | helper _ hn hne he hw _ => exact .call hn hne (hw.ensures (ParamText.shaped hi)) he
  | plainPartial _ hn he _ => exact .plainPartial hn he
  | boundPartial _ hn hne he hw _ =>
    exact .boundPartial hn hne (hw.ensures (ArgumentText.shaped hi)) he
  | block hn helse he hw _ hu hv =>
    have hin := hv.inside hbody hu
    refine .block hn helse (hw.ensures (ParamText.shaped hi)) he (fun b hb => (hin b hb).1)
      (fun b hb => (hin b hb).2) ?_
    rintro rfl
    cases hv
    rfl
  | binder hn hne hw _ _ _ _ hx hv _ _ hu he =>
    have hin := he.inside hbody hu
    refine .binder hn hne (hw.ensures (ParamText.shaped hi)) (List.cons_ne_nil _ _) ?_
      (fun b hb => (hin b hb).1) (fun b hb => (hin b hb).2) rfl
    have hnames := hv.ensures (P := IsName) fun _ _ hname => hname.1
    simpa using ⟨hx, hnames⟩

/-! ## Blocks -/

theorem TagText.ne_content {n : Node} (h : TagText inner body n w) (t : String) :
    n ≠ .content t := by
  rintro rfl
  cases h

theorem pair_infix_cons {m n x : Node} {b : Block} :
    [m, n] <:+: x :: b ↔ (m = x ∧ b.head? = some n) ∨ [m, n] <:+: b := by
  have hpre : [m, n] <+: x :: b ↔ m = x ∧ b.head? = some n := by
    cases b <;> simp [List.cons_prefix_cons, eq_comm]
  rw [List.infix_cons_iff, hpre]

theorem BlockText.textApart {b : Block} (h : BlockText (TagText inner body) b w) :
    b.TextApart := by
  induction h with
  | nil =>
    intro t n h
    cases List.eq_nil_of_infix_nil h
  | content =>
    intro t n h
    have := h.length_le
    simp at this
  | contentTag _ hlast hw _ ih =>
    intro t n h
    rcases pair_infix_cons.1 h with ⟨heq, hhead⟩ | h
    · cases heq
      cases hhead
      exact ⟨hw.ne_content, hlast⟩
    · rcases pair_infix_cons.1 h with ⟨heq, -⟩ | h
      · exact (hw.ne_content t heq.symm).elim
      · exact ih t n h
  | tag hw _ ih =>
    intro t n h
    rcases pair_infix_cons.1 h with ⟨heq, -⟩ | h
    · exact (hw.ne_content t heq.symm).elim
    · exact ih t n h

/-- Text that is the last node of a block is the end of each text that writes the block. -/
theorem BlockText.suffix_of_getLast? {b : Block} (h : BlockText (TagText inner body) b w)
    {t : String} (hlast : b.getLast? = some (.content t)) : t.toList <:+ w := by
  induction h with
  | nil => cases hlast
  | content =>
    cases hlast
    exact List.suffix_refl _
  | @contentTag _ n b _ _ _ _ hw _ ih =>
    rw [List.getLast?_cons_cons] at hlast
    cases b with
    | nil => exact (hw.ne_content t (by simpa using hlast)).elim
    | cons m b =>
      rw [List.getLast?_cons_cons] at hlast
      exact (ih hlast).trans (List.suffix_append _ _)
  | @tag n b _ _ hw _ ih =>
    cases b with
    | nil => exact (hw.ne_content t (by simpa using hlast)).elim
    | cons m b =>
      rw [List.getLast?_cons_cons] at hlast
      exact (ih hlast).trans (List.suffix_append _ _)

theorem BlockText.enclosed {b : Block} (h : BlockText (TagText inner body) b w)
    (hw : w.getLast? ≠ some '{') : b.Enclosed where
  apart := h.textApart
  last t ht := by
    obtain ⟨v, rfl⟩ := h.suffix_of_getLast? ht
    exact getLast?_of_append hw

theorem BlockText.shaped (hi : Ensures inner (∀ p ∈ ·, p.Shaped))
    (hbody : Ensures body Block.Inside) {b : Block} (h : BlockText (TagText inner body) b w) :
    ∀ n ∈ b, n.Shaped := by
  induction h with
  | nil => simp
  | content ht => simpa using ht.shaped
  | contentTag ht _ hw _ ih => simpa using ⟨ht.shaped, TagText.shaped hi hbody hw, ih⟩
  | tag hw _ ih => simpa using ⟨TagText.shaped hi hbody hw, ih⟩

theorem ensures_innerText (k : Nat) : Ensures (InnerText k) (∀ p ∈ ·, p.Shaped) := by
  induction k with
  | zero => exact fun _ _ h => h.elim
  | succ k ih => exact fun _ _ h => Trailing.ensures (ParamText.shaped ih) h

theorem ensures_bodyText (k : Nat) : Ensures (BodyText k) Block.Inside := by
  induction k with
  | zero => exact fun _ _ h => h.elim
  | succ k ih => exact fun _ _ h => ⟨h.1.enclosed h.2, h.1.shaped (ensures_innerText k) ih⟩

/-- Every template that is read has the shape, at every level. -/
theorem parseWithin_shaped {limit : Nat} {text : String} {b : Block}
    (h : parseWithin limit text = .ok b) : b.Shaped := by
  have hw : Written limit b text.toList := parseChars_eq_ok_iff.1 h
  exact ⟨BlockText.textApart hw,
    BlockText.shaped (ensures_innerText limit) (ensures_bodyText limit) hw⟩

/-- A binder with a call in its parameters and text on either side of an alternative, and an
opening brace at the very end. -/
def shapedText : String :=
  "\x7b\x7b#each (a 'b') else as |x y|\x7d\x7dc\x7b\x7belse\x7d\x7d\x7b\x7b> d k=\x22e\x22\x7d\x7d" ++
    "\x7b\x7b/each\x7d\x7df \x7b"

theorem parseWithin_shaped_binder :
    ∃ b, parseWithin 1 shapedText = .ok b ∧ b.length = 2 ∧ Block.Shaped b := by
  have h : parseWithin 1 shapedText = .ok [.binder "each"
      [.call "a" [.literal "b"], .path "else"] ["x", "y"] [.content "c"]
      (some [.boundPartial "d" [.mk "k" (.literal "e")] .none]) .none, .content "f \x7b"] := by cbv
  exact ⟨_, h, rfl, parseWithin_shaped h⟩

end BraceTemplate
