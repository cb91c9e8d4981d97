import BraceTemplate.Proofs.Grammar.Soundness

/-!
# Templates one after the other

Two texts that are templates make a template together, with the nodes of the one behind the nodes
of the other. Where text meets text the two are one node. Only an opening brace at the end of the
first and another at the start of the second would make a tag that neither has.
-/

namespace BraceTemplate

/-- The nodes of two blocks one after the other, with the text on either side of the seam as one
node. -/
def Block.join : Block → Block → Block
  | [], b' => b'
  | [.content t], .content t' :: b' => .content (t ++ t') :: b'
  | n :: b, b' => n :: Block.join b b'

/-- The two texts do not put an opening brace before another where they meet. -/
def Seam (w w' : List Char) : Prop := ¬ (w.getLast? = some '{' ∧ w'.head? = some '{')

variable {inner : List Param → List Char → Prop} {body : Block → List Char → Prop}
variable {w w' : List Char}

theorem Seam.of_append {v : List Char} (h : Seam (v ++ w) w') : Seam w w' := by
  refine fun ⟨hlast, hhead⟩ => h ⟨?_, hhead⟩
  rw [List.getLast?_append, hlast]
  rfl

theorem Seam.getLast?_ne {u : List Char} (h : Seam w (Output.escaped.opening ++ u)) :
    w.getLast? ≠ some '{' :=
  fun hlast => h ⟨hlast, rfl⟩

theorem beforeTag_append_self {t t' : List Char} (ht : Grammar.beforeTag t = t)
    (ht' : Grammar.beforeTag t' = t') (hseam : Seam t t') :
    Grammar.beforeTag (t ++ t') = t ++ t' := by
  induction t with
  | nil => exact ht'
  | cons c t ih =>
    obtain ⟨hc, ht⟩ := of_beforeTag_cons ht
    have hnext : c = '{' → headIs (· = '{') (t ++ t') = false := by
      rintro rfl
      cases t with
      | cons d t => exact hc rfl
      | nil =>
        cases t' with
        | nil => rfl
        | cons d t' => simpa [Seam] using hseam
    rw [List.cons_append, beforeTag_cons hnext, ih ht (Seam.of_append (v := [c]) hseam)]

theorem IsContent.append {t t' : String} (ht : IsContent t) (ht' : IsContent t')
    (hseam : Seam t.toList t'.toList) : IsContent (t ++ t') := by
  simp only [IsContent, String.toList_append]
  exact ⟨by simp [ht.1], beforeTag_append_self ht.2 ht'.2 hseam⟩

/-- A tag does not merge with what follows. -/
theorem TagText.join {n : Node} (h : TagText inner body n w) (b b' : Block) :
    Block.join (n :: b) b' = n :: b.join b' := by
  cases h <;> cases b <;> rfl

/-- Nor does it merge with text before it. -/
theorem TagText.content_join {n : Node} (h : TagText inner body n w) (t : String) (b : Block) :
    Block.join [.content t] (n :: b) = .content t :: n :: b := by
  cases h <;> rfl

/-- Text before a block stays in front, or becomes one with the text that the block starts with. -/
theorem BlockText.content_append {t : String} (ht : IsContent t) {b : Block}
    (h : BlockText (TagText inner body) b w) (hseam : Seam t.toList w) :
    BlockText (TagText inner body) (Block.join [.content t] b) (t.toList ++ w) := by
  cases h with
  | nil => simpa [Block.join] using BlockText.content ht
  | content ht' =>
    rw [← String.toList_append]
    exact .content (ht.append ht' hseam)
  | @contentTag t' n b v v' ht' hlast hw hb =>
    have hne := List.getLast?_isSome.2 ht'.1
    have hlast' : (t ++ t').toList.getLast? ≠ some '{' := by
      rwa [String.toList_append, List.getLast?_append, Option.or_of_isSome hne]
    have hseam' : Seam t.toList t'.toList := by
      refine fun ⟨h, hhead⟩ => hseam ⟨h, ?_⟩
      simp [List.head?_append, hhead]
    simpa [Block.join] using BlockText.contentTag (ht.append ht' hseam') hlast' hw hb
  | @tag n b v v' hw hb =>
    rw [hw.content_join, ← List.append_assoc]
    obtain ⟨u, rfl⟩ := opening_of_tagText hw
    rw [List.append_assoc] at hseam
    exact .contentTag ht hseam.getLast?_ne hw hb

/-- Written forms of two blocks put together write the two blocks put together. -/
theorem BlockText.append {b b' : Block} (h : BlockText (TagText inner body) b w)
    (h' : BlockText (TagText inner body) b' w') (hseam : Seam w w') :
    BlockText (TagText inner body) (b.join b') (w ++ w') := by
  induction h with
  | nil => exact h'
  | content ht => exact h'.content_append ht hseam
  | @contentTag t n b u v ht hlast hw _ ih =>
    have hjoin : Block.join (.content t :: n :: b) b' = .content t :: Block.join (n :: b) b' := rfl
    rw [hjoin, hw.join, List.append_assoc]
    exact .contentTag ht hlast hw (ih hseam.of_append)
  | tag hw _ ih =>
    rw [hw.join, List.append_assoc]
    exact .tag hw (ih hseam.of_append)

/-- Two texts that are templates are one together. -/
theorem parseWithin_append {limit : Nat} {t t' : String} {b b' : Block}
    (h : parseWithin limit t = .ok b) (h' : parseWithin limit t' = .ok b')
    (hseam : Seam t.toList t'.toList) : parseWithin limit (t ++ t') = .ok (b.join b') := by
  have hw : Written limit (b.join b') (t.toList ++ t'.toList) :=
    BlockText.append (parseChars_eq_ok_iff.1 h) (parseChars_eq_ok_iff.1 h') hseam
  rw [parseWithin, String.toList_append]
  exact parseChars_eq_ok_iff.2 hw

end BraceTemplate
