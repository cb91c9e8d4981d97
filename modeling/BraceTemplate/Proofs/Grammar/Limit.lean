import BraceTemplate.Grammar.Parse

/-!
# Reading with less to spend

A rule that may open fewer levels either nests too deep or gives the very reply of the rule that
may open more, misses included. Every combinator keeps this, so no alternative that fails can
nest deeper than the one that is read without ending the whole reading.
-/

namespace BraceTemplate

open Rule

/-- The rule gives the reply of another, unless it nests too deep. -/
def Agrees {α : Type} (p q : Rule α) : Prop :=
  ∀ s, p s = q s ∨ ∃ left, (p s).outcome = .tooDeep left

section
variable {α β : Type} {p p' q q' : Rule α} {f f' : α → Rule β}

theorem Agrees.refl (p : Rule α) : Agrees p p := fun _ => .inl rfl

theorem Agrees.bind (hp : Agrees p p') (hf : ∀ a, Agrees (f a) (f' a)) :
    Agrees (p >>= f) (p' >>= f') := by
  intro s
  show andThen p f s = andThen p' f' s ∨ ∃ left, (andThen p f s).outcome = .tooDeep left
  unfold andThen
  rcases hp s with h | ⟨left, h⟩
  · rw [h]
    rcases p' s with ⟨a, rest⟩ | _ | left
    · rcases hf a rest with hr | ⟨left, hr⟩
      · exact .inl (by simp only [hr])
      · exact .inr ⟨left, hr⟩
    · exact .inl rfl
    · exact .inl rfl
  · rcases hr : p s with ⟨o, ms⟩
    rw [hr] at h
    obtain rfl : o = .tooDeep left := h
    exact .inr ⟨left, rfl⟩

/-- The parts in front of the first one that differs do not matter. -/
theorem Agrees.after (hf : ∀ a, Agrees (f a) (f' a)) : Agrees (p >>= f) (p >>= f') :=
  (Agrees.refl p).bind hf

theorem Agrees.orElse (hp : Agrees p p') (hq : Agrees q q') :
    Agrees (p.orElse q) (p'.orElse q') := by
  intro s
  unfold Rule.orElse
  rcases hp s with h | ⟨left, h⟩
  · rw [h]
    rcases p' s with _ | _ | _
    · exact .inl rfl
    · rcases hq s with hr | ⟨left, hr⟩
      · exact .inl (by simp only [hr])
      · exact .inr ⟨left, hr⟩
    · exact .inl rfl
  · rcases hr : p s with ⟨o, ms⟩
    rw [hr] at h
    obtain rfl : o = .tooDeep left := h
    exact .inr ⟨left, rfl⟩

theorem Agrees.firstOf {ps qs : List (Rule α)} (hp : Agrees p q)
    (h : Agrees (Rule.firstOf ps) (Rule.firstOf qs)) :
    Agrees (Rule.firstOf (p :: ps)) (Rule.firstOf (q :: qs)) :=
  hp.orElse h

theorem Agrees.optional (hp : Agrees p p') : Agrees (Rule.optional p) (Rule.optional p') :=
  (hp.bind fun _ => .refl _).orElse (.refl _)

theorem Agrees.many (hp : Agrees p p') : Agrees (Rule.many p) (Rule.many p') := by
  intro s
  induction h : s.length using Nat.strongRecOn generalizing s with
  | ind k ih =>
    subst h
    rw [Rule.many, Rule.many]
    rcases hp s with h | ⟨left, h⟩
    · rw [h]
      rcases p' s with ⟨a, rest⟩ | _ | left
      · by_cases hlt : rest.length < s.length
        · simp only [hlt, if_true]
          rcases ih rest.length hlt rest rfl with hr | ⟨left, hr⟩
          · exact .inl (by rw [hr])
          · rcases hm : Rule.many p rest with ⟨o, ms⟩
            rw [hm] at hr
            obtain rfl : o = .tooDeep left := hr
            exact .inr ⟨left, rfl⟩
        · exact .inl (by simp only [hlt, if_false])
      · exact .inl rfl
      · exact .inl rfl
    · rcases hr : p s with ⟨o, ms⟩
      rw [hr] at h
      obtain rfl : o = .tooDeep left := h
      exact .inr ⟨left, rfl⟩

theorem Agrees.separated (separator : Rule Unit) (hp : Agrees p p') :
    Agrees (Rule.separated separator p) (Rule.separated separator p') :=
  hp.bind fun _ => (Agrees.many (Agrees.after fun _ => hp)).bind fun _ => .refl _

end

/-! ## The rules of the grammar -/

section
variable {rInner rInner' : Rule (List Param)} {rBody rBody' : Rule Block}

theorem agrees_parameter (hi : Agrees rInner rInner') :
    Agrees (Grammar.parameter rInner) (Grammar.parameter rInner') := by
  refine Agrees.after fun _ => (Agrees.refl _).firstOf ((Agrees.refl _).firstOf ?_)
  refine Agrees.firstOf (Agrees.after fun _ => ?_) (.refl _)
  refine Agrees.after fun _ => Agrees.after fun _ => ?_
  exact hi.bind fun _ => .refl _

theorem agrees_parametersAfter (before : Rule Unit) (hi : Agrees rInner rInner') :
    Agrees (Grammar.parametersAfter before rInner) (Grammar.parametersAfter before rInner') := by
  refine (Agrees.optional (Agrees.after fun _ => ?_)).bind fun _ => .refl _
  exact (agrees_parameter hi).separated _

theorem agrees_helper (output : Output) (hi : Agrees rInner rInner') :
    Agrees (Grammar.helper rInner output) (Grammar.helper rInner' output) := by
  refine Agrees.after fun _ => Agrees.after fun _ => ?_
  refine Agrees.after fun _ => Agrees.after fun _ => ?_
  exact (agrees_parametersAfter _ hi).bind fun _ => .refl _

theorem agrees_argument (hi : Agrees rInner rInner') :
    Agrees (Grammar.argument rInner) (Grammar.argument rInner') := by
  refine Agrees.after fun _ => Agrees.after fun _ => ?_
  refine Agrees.after fun _ => Agrees.after fun _ => ?_
  exact (agrees_parameter hi).bind fun _ => .refl _

theorem agrees_partialTag (hi : Agrees rInner rInner') :
    Agrees (Grammar.partialTag rInner) (Grammar.partialTag rInner') := by
  refine Agrees.after fun _ => Agrees.after fun _ => ?_
  refine Agrees.after fun _ => Agrees.after fun _ => ?_
  refine Agrees.after fun _ => Agrees.after fun _ => ?_
  exact (Agrees.optional ((agrees_argument hi).separated _)).bind fun _ => .refl _

theorem agrees_markedElse (hb : Agrees rBody rBody') :
    Agrees (Grammar.markedElse rBody) (Grammar.markedElse rBody') := by
  refine Agrees.after fun _ => Agrees.after fun _ => ?_
  refine Agrees.after fun _ => Agrees.after fun _ => ?_
  refine Agrees.after fun _ => Agrees.after fun _ => ?_
  exact Agrees.after fun _ => hb.bind fun _ => .refl _

theorem agrees_plainElse (hb : Agrees rBody rBody') :
    Agrees (Grammar.plainElse rBody) (Grammar.plainElse rBody') := by
  refine Agrees.after fun _ => Agrees.after fun _ => ?_
  refine Agrees.after fun _ => Agrees.after fun _ => ?_
  exact Agrees.after fun _ => hb

theorem agrees_blockTag (hi : Agrees rInner rInner') (hb : Agrees rBody rBody') :
    Agrees (Grammar.blockTag rInner rBody) (Grammar.blockTag rInner' rBody') := by
  refine Agrees.after fun _ => Agrees.after fun _ => ?_
  refine Agrees.after fun _ => Agrees.after fun _ => ?_
  refine (agrees_parametersAfter _ hi).bind fun _ => Agrees.after fun _ => ?_
  refine Agrees.after fun _ => Agrees.after fun _ => hb.bind fun _ => ?_
  exact (agrees_markedElse hb).optional.bind fun _ => .refl _

theorem agrees_binderTag (hi : Agrees rInner rInner') (hb : Agrees rBody rBody') :
    Agrees (Grammar.binderTag rInner rBody) (Grammar.binderTag rInner' rBody') := by
  refine Agrees.after fun _ => Agrees.after fun _ => ?_
  refine Agrees.after fun _ => Agrees.after fun _ => ?_
  refine Agrees.after fun _ => ((agrees_parameter hi).separated _).bind fun _ => ?_
  refine Agrees.after fun _ => Agrees.after fun _ => ?_
  refine Agrees.after fun _ => Agrees.after fun _ => ?_
  refine Agrees.after fun _ => Agrees.after fun _ => ?_
  refine Agrees.after fun _ => Agrees.after fun _ => ?_
  refine Agrees.after fun _ => Agrees.after fun _ => ?_
  refine Agrees.after fun _ => hb.bind fun _ => ?_
  exact (agrees_plainElse hb).optional.bind fun _ => .refl _

theorem agrees_node (hi : Agrees rInner rInner') (hb : Agrees rBody rBody') :
    Agrees (Grammar.node rInner rBody) (Grammar.node rInner' rBody') :=
  (Agrees.refl _).firstOf <| (Agrees.refl _).firstOf <| (Agrees.refl _).firstOf <|
    (agrees_helper _ hi).firstOf <| (agrees_helper _ hi).firstOf <|
    (agrees_partialTag hi).firstOf <| (agrees_blockTag hi hb).firstOf <|
    (agrees_binderTag hi hb).firstOf (.refl _)

end

variable {n m : Nat}

theorem agrees_innerParams (h : n ≤ m) :
    Agrees (Grammar.innerParams n) (Grammar.innerParams m) := by
  induction n generalizing m with
  | zero => exact fun s => .inr ⟨s.length, rfl⟩
  | succ n ih =>
    obtain ⟨m, rfl⟩ : ∃ m', m = m' + 1 := ⟨m - 1, by omega⟩
    exact agrees_parametersAfter _ (ih (by omega))

theorem agrees_blockBody (h : n ≤ m) : Agrees (Grammar.blockBody n) (Grammar.blockBody m) := by
  induction n generalizing m with
  | zero => exact fun s => .inr ⟨s.length, rfl⟩
  | succ n ih =>
    obtain ⟨m, rfl⟩ : ∃ m', m = m' + 1 := ⟨m - 1, by omega⟩
    exact (agrees_node (agrees_innerParams (by omega)) (ih (by omega))).many

theorem agrees_items (h : n ≤ m) : Agrees (Grammar.items n) (Grammar.items m) :=
  (agrees_node (agrees_innerParams h) (agrees_blockBody h)).many

/-- With more levels to open, a text is read with the same result, if it was not too deep. -/
theorem parseChars_eq_or_tooDeep (h : n ≤ m) (s : List Char) :
    parseChars n s = parseChars m s ∨
      ∃ position, parseChars n s = .error (.tooDeep position n) := by
  unfold parseChars
  rcases agrees_items h s with hr | ⟨left, hr⟩
  · rw [hr]
    rcases Grammar.items m s with ⟨a, _ | ⟨c, rest⟩⟩ | _ | left
    · exact .inl rfl
    · exact .inl rfl
    · exact .inl rfl
    · exact .inr ⟨_, rfl⟩
  · rcases hi : Grammar.items n s with ⟨o, ms⟩
    rw [hi] at hr
    obtain rfl : o = .tooDeep left := hr
    exact .inr ⟨_, rfl⟩

end BraceTemplate
