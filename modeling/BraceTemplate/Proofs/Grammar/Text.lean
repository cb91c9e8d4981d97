import BraceTemplate.Proofs.Grammar.Misses

/-!
# Text between tags

Text is read piece by piece: its runs without braces one after the other, and each brace between
them. Together that is all the text before the first two opening braces in a row (`content_eq`), so
what is proved of text need not go by pieces.
-/

namespace BraceTemplate

open Rule

namespace Grammar

/-- The text before the first two opening braces in a row. -/
def beforeTag : List Char → List Char
  | '{' :: '{' :: _ => []
  | c :: rest => c :: beforeTag rest
  | [] => []

/-- The text from the first two opening braces in a row. -/
def fromTag : List Char → List Char
  | '{' :: '{' :: rest => '{' :: '{' :: rest
  | _ :: rest => fromTag rest
  | [] => []

theorem beforeTag_append_fromTag (s : List Char) : beforeTag s ++ fromTag s = s := by
  fun_induction beforeTag s with
  | case1 => simp [fromTag]
  | case2 c rest h ih => simp [fromTag, ih]
  | case3 => rfl

end Grammar

variable {s w : List Char}

theorem beforeTag_cons {c : Char} (h : c = '{' → headIs (· = '{') s = false) :
    Grammar.beforeTag (c :: s) = c :: Grammar.beforeTag s := by
  rw [Grammar.beforeTag]
  rintro u rfl rfl
  cases h rfl

theorem fromTag_cons {c : Char} (h : c = '{' → headIs (· = '{') s = false) :
    Grammar.fromTag (c :: s) = Grammar.fromTag s := by
  rw [Grammar.fromTag]
  rintro u rfl rfl
  cases h rfl

/-- The text starts with `w`, and no tag starts in there or at its end. -/
def StartsWithText (w rest s : List Char) : Prop :=
  s = w ++ rest ∧ Grammar.beforeTag s = w ++ Grammar.beforeTag rest ∧
    Grammar.fromTag s = Grammar.fromTag rest

theorem startsWithText_cons {c : Char} (h : c = '{' → headIs (· = '{') s = false) :
    StartsWithText [c] s (c :: s) :=
  ⟨rfl, beforeTag_cons h, fromTag_cons h⟩

theorem startsWithText_run (hw : ∀ c ∈ w, Grammar.isBrace c = false) (s : List Char) :
    StartsWithText w s (w ++ s) := by
  induction w with
  | nil => exact ⟨rfl, rfl, rfl⟩
  | cons c w ih =>
    obtain ⟨-, hbefore, hfrom⟩ := ih fun d hd => hw d (List.mem_cons_of_mem _ hd)
    have hc : c = '{' → headIs (· = '{') (w ++ s) = false := by
      rintro rfl
      cases hw '{' (List.mem_cons_self ..)
    refine ⟨rfl, ?_, ?_⟩
    · rw [List.cons_append, beforeTag_cons hc, hbefore]
      rfl
    · rw [List.cons_append, fromTag_cons hc, hfrom]

/-- Where no tag starts and the text goes on, there is a piece of text. -/
theorem textPiece_cases (s : List Char) :
    (Refuses Grammar.textPiece s ∧ Grammar.beforeTag s = [] ∧ Grammar.fromTag s = s) ∨
      ∃ w rest, w ≠ [] ∧ Reads Grammar.textPiece s w rest ∧ StartsWithText w rest s := by
  cases s with
  | nil => exact .inl ⟨rfl, rfl, rfl⟩
  | cons c s =>
    by_cases hc : Grammar.isBrace c = true
    · have hrun : Refuses (Grammar.run1 fun c => !Grammar.isBrace c) (c :: s) :=
        refuses_run1.2 (by simp [hc])
      simp only [Grammar.isBrace, Bool.or_eq_true, decide_eq_true_eq] at hc
      rcases hc with rfl | rfl
      · cases hs : headIs (· = '{') s with
        | true =>
          cases s with
          | nil => cases hs
          | cons d s =>
            obtain rfl : d = '{' := by simpa using hs
            exact .inl ⟨rfl, rfl, rfl⟩
        | false =>
          refine .inr ⟨['{'], s, List.cons_ne_nil _ _, ?_, startsWithText_cons fun _ => hs⟩
          have hopen : Reads (Grammar.literal ['{']) ('{' :: s) () s := reads_literal.2 rfl
          refine reads_firstOf_cons.2 (.inr ⟨hrun, reads_firstOf_cons.2 (.inl (hopen.seq ?_))⟩)
          have hnext : stripPrefix ['{'] s = none := stripPrefix_cons_eq_none hs
          exact Reads.seq (reads_refuse.2 ⟨by rw [hnext]; rfl, rfl⟩) (reads_pure.2 ⟨rfl, rfl⟩)
      · refine .inr ⟨['}'], s, List.cons_ne_nil _ _, rfl, startsWithText_cons nofun⟩
    · obtain ⟨w, rest, hread⟩ : ∃ w rest,
          Reads (Grammar.run1 fun c => !Grammar.isBrace c) (c :: s) w rest :=
        ⟨_, _, reads_run1.2 ⟨by simp [hc], run_unique.1 ⟨rfl, rfl⟩⟩⟩
      obtain ⟨hne, hw, -, hs⟩ := reads_run1.1 hread
      refine .inr ⟨w, rest, hne, reads_firstOf_cons.2 (.inl hread), hs ▸ startsWithText_run ?_ rest⟩
      simpa using hw

/-- All pieces of text together are the text before the next tag. -/
theorem exists_reads_many_textPiece (s : List Char) :
    ∃ pieces, Reads (many Grammar.textPiece) s pieces (Grammar.fromTag s) ∧
      pieces.flatten = Grammar.beforeTag s := by
  induction hs : s.length using Nat.strongRecOn generalizing s with
  | ind n ih =>
    subst hs
    rcases textPiece_cases s with ⟨hrefuse, hbefore, hfrom⟩ | ⟨w, rest, hne, hread, hsplit⟩
    · exact ⟨[], hfrom.symm ▸ hrefuse.many, hbefore.symm⟩
    · obtain ⟨rfl, hbefore, hfrom⟩ := hsplit
      have hlt := advances_textPiece.consumes hread
      obtain ⟨pieces, hmany, hflat⟩ := ih rest.length hlt rest rfl
      refine ⟨w :: pieces, hfrom.symm ▸ hread.many hlt hmany, ?_⟩
      rw [List.flatten_cons, hflat, hbefore]

/-- Text is read as far as the next tag, unless one starts at once. -/
theorem content_eq (s : List Char) : Grammar.content s = match Grammar.beforeTag s with
    | [] => ⟨.mismatch, []⟩
    | text => ⟨.ok (.content (String.ofList text)) (Grammar.fromTag s), []⟩ := by
  obtain ⟨pieces, hmany, hflat⟩ := exists_reads_many_textPiece s
  cases pieces with
  | nil =>
    have hrefuse : Refuses Grammar.content s :=
      Refuses.bind (Refuses.bind (reads_many_nil.1 hmany).1)
    rw [← hflat]
    exact silent_content.eq_of_refuses hrefuse
  | cons w pieces =>
    obtain ⟨mid, hread, hlt, hmany⟩ := reads_many_cons.1 hmany
    have hcontent : Reads Grammar.content s
        (.content (String.ofList (w :: pieces).flatten)) (Grammar.fromTag s) :=
      Reads.bind (hread.bind (hmany.bind (reads_pure.2 ⟨rfl, rfl⟩))) (reads_pure.2 ⟨rfl, rfl⟩)
    rw [silent_content.eq_of_reads hcontent, hflat]
    split
    · rename_i hnil
      -- the first piece is not empty, so less than all is left
      have hle := (advances_textPiece.onward.many.rest hmany).length_le
      have hall := Grammar.beforeTag_append_fromTag s
      rw [hnil, List.nil_append] at hall
      rw [hall] at hle
      omega
    · rfl

end BraceTemplate
