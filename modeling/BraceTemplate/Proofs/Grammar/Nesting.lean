import BraceTemplate.Proofs.Grammar.Limit
import BraceTemplate.Proofs.Grammar.Soundness
import Mathlib

/-!
# The nesting limit

`nestBlock` measures how deep the blocks and subexpressions of a tree stand inside each other. A
tree is written within a limit exactly if it nests no deeper, whatever the text, so the limit
refuses the texts of the trees that nest deeper and no others.
-/

namespace BraceTemplate

mutual

/-- How many levels a node opens. -/
def Node.nest : Node → Nat
  | .content _ | .literal _ | .reference _ _ _ | .plainPartial _ _ _ => 0
  | .helper _ _ params body otherwise _ _ =>
    max (nestParams params) (max (nestBody body) (nestBody otherwise))
  | .binder _ params _ body otherwise _ =>
    max (nestParams params) (max (1 + nestBlock body) (nestBody otherwise))
  | .boundPartial _ args _ => nestArguments args
  | .block b => nestBlock b

/-- How many levels a parameter opens: a subexpression is one itself. -/
def Param.nest : Param → Nat
  | .path _ => 0
  | .node (.literal _) => 0
  | .node n => 1 + n.nest

def nestParams : List Param → Nat
  | [] => 0
  | p :: params => max p.nest (nestParams params)

def nestArguments : List Argument → Nat
  | [] => 0
  | .mk _ value :: args => max value.nest (nestArguments args)

/-- How many levels a body opens, where there is one: it is one itself. -/
def nestBody : Option (List Node) → Nat
  | none => 0
  | some b => 1 + nestBlock b

/-- The most levels that one of the nodes opens. -/
def nestBlock : List Node → Nat
  | [] => 0
  | n :: b => max n.nest (nestBlock b)

end

def Argument.nest (a : Argument) : Nat := a.value.nest

theorem nestArguments_cons (a : Argument) (args : List Argument) :
    nestArguments (a :: args) = max a.nest (nestArguments args) := by
  cases a
  rw [nestArguments]
  rfl

theorem nest_call (name : String) (params : List Param) :
    (Param.call name params).nest = 1 + nestParams params := by
  simp [Param.call, Param.nest, Node.nest, nestBody]

variable {inner inner' : List Param → List Char → Prop} {body body' : Block → List Char → Prop}
variable {w : List Char} {k m n : Nat}

/-! ## Moving a written form to other levels -/

theorem Spaced.imp {α : Type} {T T' : α → List Char → Prop} {as : List α} (h : Spaced T as w)
    (hT : ∀ a ∈ as, ∀ w, T a w → T' a w) : Spaced T' as w := by
  induction h with
  | nil => exact .nil
  | cons hne hg hw _ ih =>
    exact .cons hne hg (hT _ (by simp) _ hw) (ih fun a ha => hT a (by simp [ha]))

theorem Trailing.imp {α : Type} {T T' : α → List Char → Prop} {as : List α} (h : Trailing T as w)
    (hT : ∀ a ∈ as, ∀ w, T a w → T' a w) : Trailing T' as w := by
  cases h with
  | nil => exact .nil
  | cons hg hne hw hs =>
    exact .cons hg hne (hT _ (by simp) _ hw) (hs.imp fun a ha => hT a (by simp [ha]))

theorem nest_le_nestParams {p : Param} {params : List Param} (h : p ∈ params) :
    p.nest ≤ nestParams params := by
  induction params with
  | nil => cases h
  | cons q params ih =>
    rw [nestParams]
    rcases List.mem_cons.1 h with rfl | h
    · omega
    · have := ih h
      omega

theorem nest_le_nestArguments {a : Argument} {args : List Argument} (h : a ∈ args) :
    a.nest ≤ nestArguments args := by
  induction args with
  | nil => cases h
  | cons b args ih =>
    rw [nestArguments_cons]
    rcases List.mem_cons.1 h with rfl | h
    · omega
    · have := ih h
      omega

/-- What stands inside can be written the other way, where it opens less than `k` levels. -/
def Moves {α : Type} (k : Nat) (nest : α → Nat) (T T' : α → List Char → Prop) : Prop :=
  ∀ ⦃a w⦄, T a w → nest a < k → T' a w

theorem ParamText.move (hi : Moves k nestParams inner inner') {p : Param}
    (h : ParamText inner p w) (hk : p.nest ≤ k) : ParamText inner' p w := by
  cases h with
  | path hp => exact .path hp
  | literal hq hnot => exact .literal hq hnot
  | call hb hn hw hb' =>
    rw [nest_call] at hk
    exact .call hb hn (hi hw (by omega)) hb'

theorem ArgumentText.move (hi : Moves k nestParams inner inner') {a : Argument}
    (h : ArgumentText inner a w) (hk : a.nest ≤ k) : ArgumentText inner' a w := by
  obtain ⟨hkey, hb, hb', hw⟩ := h
  exact .mk hkey hb hb' (hw.move hi hk)

theorem OtherwiseText.move (hbody : Moves k nestBlock body body') {o : Option Block} {t : Trim}
    (h : OtherwiseText body o t w) (hk : nestBody o ≤ k) : OtherwiseText body' o t w := by
  cases h with
  | none => exact .none
  | some hb hb' hu =>
    rw [nestBody] at hk
    exact .some hb hb' (hbody hu (by omega))

theorem Spaced.move (hi : Moves k nestParams inner inner') {params : List Param}
    (h : Spaced (ParamText inner) params w) (hk : nestParams params ≤ k) :
    Spaced (ParamText inner') params w :=
  h.imp fun _ hp _ hw => hw.move hi (Nat.le_trans (nest_le_nestParams hp) hk)

theorem TagText.move (hi : Moves k nestParams inner inner')
    (hbody : Moves k nestBlock body body') {n : Node} (h : TagText inner body n w)
    (hk : n.nest ≤ k) : TagText inner' body' n w := by
  cases h with
  | reference hb hp he hb' => exact .reference hb hp he hb'
  | helper hb hn hne he hw hb' =>
    rw [Node.nest] at hk
    exact .helper hb hn hne he (hw.imp fun _ hp _ hw => hw.move hi (by
      have := nest_le_nestParams hp
      omega)) hb'
  | plainPartial hb hn he hb' => exact .plainPartial hb hn he hb'
  | boundPartial hb hn hne he hw hb' =>
    rw [Node.nest] at hk
    exact .boundPartial hb hn hne he (hw.imp fun _ ha _ hw => hw.move hi
      (Nat.le_trans (nest_le_nestArguments ha) hk)) hb'
  | block hn helse he hw hb hu hv =>
    rw [Node.nest, nestBody] at hk
    exact .block hn helse he (Spaced.move hi hw (by omega)) hb (hbody hu (by omega))
      (hv.move hbody (by omega))
  | binder hn hne hw hg0 hg hb₁ hb₂ hx hv hb₃ hb₄ hu he =>
    rw [Node.nest] at hk
    exact .binder hn hne (Spaced.move hi hw (by omega)) hg0 hg hb₁ hb₂ hx hv hb₃ hb₄
      (hbody hu (by omega)) (he.move hbody (by omega))

theorem BlockText.move (hi : Moves k nestParams inner inner')
    (hbody : Moves k nestBlock body body') {b : Block}
    (h : BlockText (TagText inner body) b w) (hk : nestBlock b ≤ k) :
    BlockText (TagText inner' body') b w := by
  induction h with
  | nil => exact .nil
  | content ht => exact .content ht
  | contentTag ht hlast hw _ ih =>
    rw [nestBlock, nestBlock] at hk
    exact .contentTag ht hlast (hw.move hi hbody (by omega)) (ih (by omega))
  | tag hw _ ih =>
    rw [nestBlock] at hk
    exact .tag (hw.move hi hbody (by omega)) (ih (by omega))

theorem moves_innerText (k m : Nat) : Moves k nestParams (InnerText m) (InnerText k) := by
  induction m generalizing k with
  | zero => exact fun _ _ h _ => h.elim
  | succ m ih =>
    intro params w h hk
    obtain ⟨k, rfl⟩ : ∃ k', k = k' + 1 := ⟨k - 1, by omega⟩
    exact Trailing.imp h fun p hp w hw =>
      hw.move (ih k) (Nat.le_trans (nest_le_nestParams hp) (by omega))

theorem moves_bodyText (k m : Nat) : Moves k nestBlock (BodyText m) (BodyText k) := by
  induction m generalizing k with
  | zero => exact fun _ _ h _ => h.elim
  | succ m ih =>
    intro b w h hk
    obtain ⟨k, rfl⟩ : ∃ k', k = k' + 1 := ⟨k - 1, by omega⟩
    exact ⟨h.1.move (moves_innerText k m) (ih k) (by omega), h.2⟩

/-- A text writes a block within any limit that the block keeps, if it writes it at all. -/
theorem Written.move {b : Block} (h : Written m b w) (hk : nestBlock b ≤ k) : Written k b w :=
  BlockText.move (moves_innerText k m) (moves_bodyText k m) h hk

/-! ## The levels of what is written -/

theorem nestParams_le {params : List Param} (h : ∀ p ∈ params, p.nest ≤ k) :
    nestParams params ≤ k := by
  induction params with
  | nil => simp [nestParams]
  | cons p params ih =>
    have hp := h p (by simp)
    have := ih fun q hq => h q (by simp [hq])
    rw [nestParams]
    omega

theorem nestArguments_le {args : List Argument} (h : ∀ a ∈ args, a.nest ≤ k) :
    nestArguments args ≤ k := by
  induction args with
  | nil => simp [nestArguments]
  | cons a args ih =>
    have ha := h a (by simp)
    have := ih fun b hb => h b (by simp [hb])
    rw [nestArguments_cons]
    omega

def Below {α : Type} (k : Nat) (nest : α → Nat) (T : α → List Char → Prop) : Prop :=
  ∀ ⦃a w⦄, T a w → nest a < k

theorem ParamText.nest_le (hi : Below k nestParams inner) {p : Param} (h : ParamText inner p w) :
    p.nest ≤ k := by
  cases h with
  | path => simp [Param.nest]
  | literal => simp [Param.literal, Param.nest]
  | call _ _ hw _ =>
    have := hi hw
    rw [nest_call]
    omega

theorem Spaced.nestParams_le (hi : Below k nestParams inner) {params : List Param}
    (h : Spaced (ParamText inner) params w) : nestParams params ≤ k := by
  refine BraceTemplate.nestParams_le fun p hp => ?_
  obtain ⟨w, hw⟩ := h.exists_text p hp
  exact hw.nest_le hi

theorem Trailing.nestParams_le (hi : Below k nestParams inner) {params : List Param}
    (h : Trailing (ParamText inner) params w) : nestParams params ≤ k := by
  refine BraceTemplate.nestParams_le fun p hp => ?_
  obtain ⟨w, hw⟩ := h.exists_text p hp
  exact hw.nest_le hi

theorem OtherwiseText.nest_le (hbody : Below k nestBlock body) {o : Option Block} {t : Trim}
    (h : OtherwiseText body o t w) : nestBody o ≤ k := by
  cases h with
  | none => simp [nestBody]
  | some _ _ hu =>
    have := hbody hu
    rw [nestBody]
    omega

theorem TagText.nest_le (hi : Below k nestParams inner) (hbody : Below k nestBlock body)
    {n : Node} (h : TagText inner body n w) : n.nest ≤ k := by
  cases h with
  | reference | plainPartial => simp [Node.nest]
  | helper _ _ _ _ hw _ =>
    have := hw.nestParams_le hi
    rw [Node.nest, nestBody]
    omega
  | boundPartial _ _ _ _ hw _ =>
    rw [Node.nest]
    refine nestArguments_le fun a ha => ?_
    obtain ⟨_, _, _, _, hw⟩ := hw.exists_text a ha
    exact hw.nest_le hi
  | block _ _ _ hw _ hu hv =>
    have h1 := hw.nestParams_le hi
    have h2 := hbody hu
    have h3 := hv.nest_le hbody
    rw [Node.nest, nestBody]
    omega
  | binder _ _ hw _ _ _ _ _ _ _ _ hu he =>
    have h1 := hw.nestParams_le hi
    have h2 := hbody hu
    have h3 := he.nest_le hbody
    rw [Node.nest]
    omega

theorem BlockText.nest_le (hi : Below k nestParams inner) (hbody : Below k nestBlock body)
    {b : Block} (h : BlockText (TagText inner body) b w) : nestBlock b ≤ k := by
  induction h with
  | nil => simp [nestBlock]
  | content => simp [nestBlock, Node.nest]
  | contentTag _ _ hw _ ih =>
    have := hw.nest_le hi hbody
    rw [nestBlock, nestBlock, Node.nest]
    omega
  | tag hw _ ih =>
    have := hw.nest_le hi hbody
    rw [nestBlock]
    omega

theorem below_innerText (k : Nat) : Below k nestParams (InnerText k) := by
  induction k with
  | zero => exact fun _ _ h => h.elim
  | succ k ih => exact fun _ _ h => Nat.lt_succ_of_le (Trailing.nestParams_le ih h)

theorem below_bodyText (k : Nat) : Below k nestBlock (BodyText k) := by
  induction k with
  | zero => exact fun _ _ h => h.elim
  | succ k ih => exact fun _ _ h => Nat.lt_succ_of_le (h.1.nest_le (below_innerText k) ih)

/-- What a text writes within a limit keeps the limit. -/
theorem Written.nest_le {b : Block} (h : Written k b w) : nestBlock b ≤ k :=
  BlockText.nest_le (below_innerText k) (below_bodyText k) h

/-! ## The limit -/

/-- A text is read with a lower limit exactly if it is read with a higher one and its tree keeps
the lower. It is refused as too deep if its tree does not, and a text without a tree is refused
alike. -/
theorem parseWithin_nesting (h : n ≤ m) (text : String) :
    (∀ b, parseWithin n text = .ok b → nestBlock b ≤ n ∧ parseWithin m text = .ok b) ∧
    (∀ b, parseWithin m text = .ok b → nestBlock b ≤ n → parseWithin n text = .ok b) ∧
    (∀ b, parseWithin m text = .ok b → n < nestBlock b →
      ∃ position, parseWithin n text = .error (.tooDeep position n)) ∧
    (∀ position expected, parseWithin n text = .error (.unexpected position expected) →
      parseWithin m text = .error (.unexpected position expected)) := by
  refine ⟨fun b hb => ?_, fun b hb hk => ?_, fun b hb hk => ?_, fun position expected he => ?_⟩
  · have hw := parseChars_eq_ok_iff.1 hb
    exact ⟨hw.nest_le, parseChars_eq_ok_iff.2 (hw.move (Nat.le_trans hw.nest_le h))⟩
  · exact parseChars_eq_ok_iff.2 ((parseChars_eq_ok_iff.1 hb).move hk)
  · rcases parseChars_eq_or_tooDeep h text.toList with heq | hdeep
    · -- the same reading with the lower limit would give a tree that keeps it
      have hw := parseChars_eq_ok_iff.1 (heq.trans hb)
      have := hw.nest_le
      omega
    · exact hdeep
  · rcases parseChars_eq_or_tooDeep h text.toList with heq | ⟨position', hdeep⟩
    · exact heq.symm.trans he
    · rw [parseWithin, hdeep] at he
      cases he

theorem parseWithin_nesting_block :
    0 ≤ 1 ∧ (∃ position, parseWithin 0 "\x7b\x7b#a\x7d\x7db\x7b\x7b/a\x7d\x7d" =
      .error (.tooDeep position 0)) :=
  ⟨by decide, (parseWithin_nesting (n := 0) (m := 1) (by decide) _).2.2.1
    [.helper .raw "a" [] (some [.content "b"]) none .none (some .none)] (by cbv) (by decide)⟩

end BraceTemplate
