import BraceTemplate.Proofs.Grammar.Soundness
import Mathlib

/-!
# Printing templates

`printBlock` writes a template back in one canonical form, as pieces of text with gaps between
them. However the gaps are filled with blanks, the text is read as the same template: it is one of
the written forms of the tree.
-/

namespace BraceTemplate

/-! ## Pieces -/

/-- A part of a printed template: fixed text, or a gap that blanks have to fill. -/
inductive Piece where
  | text (w : List Char)
  | gap
  deriving DecidableEq, Repr

/-- The text fills each gap between the pieces with a run of blanks of its own choice. -/
inductive Fills : List Piece → List Char → Prop
  | nil : Fills [] []
  | text {w v : List Char} {ps : List Piece} : Fills ps v → Fills (.text w :: ps) (w ++ v)
  | gap {g v : List Char} {ps : List Piece} :
      g ≠ [] → Blanks g → Fills ps v → Fills (.gap :: ps) (g ++ v)

variable {ps qs : List Piece} {v w : List Char}

theorem fills_nil : Fills [] v ↔ v = [] := by
  constructor
  · rintro ⟨⟩
    rfl
  · rintro rfl
    exact .nil

theorem fills_text : Fills (.text w :: ps) v ↔ ∃ u, Fills ps u ∧ v = w ++ u := by
  constructor
  · rintro ⟨⟩
    exact ⟨_, ‹_›, rfl⟩
  · rintro ⟨u, hu, rfl⟩
    exact .text hu

theorem fills_gap :
    Fills (.gap :: ps) v ↔ ∃ g u, g ≠ [] ∧ Blanks g ∧ Fills ps u ∧ v = g ++ u := by
  constructor
  · rintro ⟨⟩
    exact ⟨_, _, ‹_›, ‹_›, ‹_›, rfl⟩
  · rintro ⟨g, u, hne, hg, hu, rfl⟩
    exact .gap hne hg hu

theorem fills_append :
    Fills (ps ++ qs) v ↔ ∃ u w, Fills ps u ∧ Fills qs w ∧ v = u ++ w := by
  induction ps generalizing v with
  | nil => simp [fills_nil]
  | cons p ps ih =>
    cases p with
    | text x =>
      simp only [List.cons_append, fills_text, ih]
      constructor
      · rintro ⟨_, ⟨u, w, hu, hw, rfl⟩, rfl⟩
        exact ⟨x ++ u, w, ⟨u, hu, rfl⟩, hw, by simp⟩
      · rintro ⟨_, w, ⟨u, hu, rfl⟩, hw, rfl⟩
        exact ⟨u ++ w, ⟨u, w, hu, hw, rfl⟩, by simp⟩
    | gap =>
      simp only [List.cons_append, fills_gap, ih]
      constructor
      · rintro ⟨g, _, hne, hg, ⟨u, w, hu, hw, rfl⟩, rfl⟩
        exact ⟨g ++ u, w, ⟨g, u, hne, hg, hu, rfl⟩, hw, by simp⟩
      · rintro ⟨_, w, ⟨g, u, hne, hg, hu, rfl⟩, hw, rfl⟩
        exact ⟨g, u ++ w, hne, hg, ⟨u, w, hu, hw, rfl⟩, by simp⟩

/-- The text with the same blanks in every gap. -/
def fill (g : List Char) : List Piece → List Char
  | [] => []
  | .text w :: ps => w ++ fill g ps
  | .gap :: ps => g ++ fill g ps

theorem fills_fill {g : List Char} (hne : g ≠ []) (hg : Blanks g) (ps : List Piece) :
    Fills ps (fill g ps) := by
  induction ps with
  | nil => exact .nil
  | cons p ps ih =>
    cases p with
    | text w => exact .text ih
    | gap => exact .gap hne hg ih

def spacedPieces {α : Type} (f : α → List Piece) (as : List α) : List Piece :=
  as.flatMap fun a => .gap :: f a

def tagPieces (output : Output) (trim : Trim) (inside : List Piece) : List Piece :=
  .text (output.opening ++ mark trim.left) ::
    (inside ++ [.text (mark trim.right ++ output.closing)])

theorem fills_tagPieces {output : Output} {trim : Trim} :
    Fills (tagPieces output trim ps) v ↔
      ∃ u, Fills ps u ∧
        v = output.opening ++ (mark trim.left ++ (u ++ (mark trim.right ++ output.closing))) := by
  unfold tagPieces
  simp only [fills_text, fills_append, fills_nil]
  constructor
  · rintro ⟨_, ⟨u, _, hu, ⟨_, rfl, rfl⟩, rfl⟩, rfl⟩
    exact ⟨u, hu, by simp⟩
  · rintro ⟨u, hu, rfl⟩
    exact ⟨_, ⟨u, _, hu, ⟨_, rfl, rfl⟩, rfl⟩, by simp⟩

/-! ## The printer -/

/-- The quote for a quoted text: single unless the text has one. -/
def quoteOf (text : String) : Char :=
  if '\x27' ∈ text.toList then '\x22' else '\x27'

def printNames : List String → List Piece
  | [] => []
  | x :: names => .text x.toList :: spacedPieces (fun y => [.text y.toList]) names

mutual

/-- The printed form of a node. A node that stands in no text is left out. -/
def Node.print : Node → List Piece
  | .content text => [.text text.toList]
  | .reference output path trim => tagPieces output trim [.text path.toList]
  | .helper output name params none _ trim _ =>
    tagPieces output trim (.text name.toList :: printParams params)
  | .helper _ name params (some body) otherwise _ marks =>
    let marks := marks.getD .none
    tagPieces .escaped marks.opening (.text ('#' :: name.toList) :: printParams params) ++
      (printBlock body ++ (printOtherwise marks.otherwise otherwise ++
        tagPieces .escaped marks.closing [.text ('/' :: name.toList)]))
  | .binder name params names body otherwise marks =>
    tagPieces .escaped marks.opening (.text ('#' :: name.toList) :: (printParams params ++
        (.gap :: .text ['a', 's'] :: .gap :: .text ['|'] :: (printNames names ++
          [.text ['|']])))) ++
      (printBlock body ++ (printOtherwise .none otherwise ++
        tagPieces .escaped marks.closing [.text ('/' :: name.toList)]))
  | .plainPartial name args trim =>
    tagPieces .escaped trim (.text ['>'] :: .gap :: .text name.toList :: printArguments args)
  | .boundPartial name args trim =>
    tagPieces .escaped trim (.text ['>'] :: .gap :: .text name.toList :: printArguments args)
  | .literal _ | .block _ => []

def Param.print : Param → List Piece
  | .path path => [.text path.toList]
  | .node (.literal text) => [.text ([quoteOf text] ++ text.toList ++ [quoteOf text])]
  | .node (.helper _ name params _ _ _ _) =>
    .text ('(' :: name.toList) :: (printParams params ++ [.text [')']])
  | .node _ => []

def printParams : List Param → List Piece
  | [] => []
  | p :: params => .gap :: (p.print ++ printParams params)

def printArguments : List Argument → List Piece
  | [] => []
  | .mk key value :: args =>
    .gap :: .text (key.toList ++ ['=']) :: (value.print ++ printArguments args)

def printOtherwise (trim : Trim) : Option (List Node) → List Piece
  | none => []
  | some otherwise => tagPieces .escaped trim [.text elseWord] ++ printBlock otherwise

def printBlock : List Node → List Piece
  | [] => []
  | n :: b => n.print ++ printBlock b

end

/-! ## What is printed is a written form -/

/-- Each text that fills the pieces printed for a written item is a written form of it as well. -/
def Printable {α : Type} (T : α → List Char → Prop) (f : α → List Piece) : Prop :=
  ∀ ⦃a w v⦄, T a w → Fills (f a) v → T a v

section
variable {α : Type} {T : α → List Char → Prop} {f : α → List Piece} {as : List α}

/-- Written items are printed as a list with blanks before each. -/
theorem Printable.spaced (hf : Printable T f) (h : ∀ a ∈ as, ∃ w, T a w)
    (hv : Fills (spacedPieces f as) v) : Spaced T as v := by
  induction as generalizing v with
  | nil =>
    obtain rfl := fills_nil.1 hv
    exact .nil
  | cons a as ih =>
    obtain ⟨g, u, hne, hg, hu, rfl⟩ := fills_gap.1 hv
    obtain ⟨x, y, hx, hy, rfl⟩ := fills_append.1 hu
    obtain ⟨w, hw⟩ := h a (by simp)
    rw [← List.append_assoc]
    exact .cons hne hg (hf hw hx) (ih (fun b hb => h b (by simp [hb])) hy)

end

theorem printParams_eq (params : List Param) :
    printParams params = spacedPieces Param.print params := by
  induction params with
  | nil => rw [printParams, spacedPieces, List.flatMap_nil]
  | cons p params ih => rw [printParams, ih, spacedPieces, spacedPieces, List.flatMap_cons]; rfl

def Argument.print : Argument → List Piece
  | .mk key value => .text (key.toList ++ ['=']) :: value.print

theorem printArguments_eq (args : List Argument) :
    printArguments args = spacedPieces Argument.print args := by
  induction args with
  | nil => rw [printArguments, spacedPieces, List.flatMap_nil]
  | cons a args ih =>
    cases a
    rw [printArguments, ih, spacedPieces, spacedPieces, List.flatMap_cons]
    rfl

section
variable {inner : List Param → List Char → Prop} {body : Block → List Char → Prop}

theorem isQuote_quoteOf (text : String) : isQuote (quoteOf text) := by
  unfold quoteOf
  split
  · exact .inr rfl
  · exact .inl rfl

/-- A text that one of the quotes can enclose is printed between quotes it does not contain. -/
theorem quoteOf_notMem {text : String} {q : Char} (hq : isQuote q) (h : q ∉ text.toList) :
    quoteOf text ∉ text.toList := by
  unfold quoteOf
  split
  · rename_i hs
    rcases hq with rfl | rfl
    · exact (h hs).elim
    · exact h
  · assumption

theorem printable_paramText (hi : Printable inner printParams) :
    Printable (ParamText inner) Param.print := by
  intro p w v h hv
  cases h with
  | @path p hp =>
    rw [Param.print, fills_text] at hv
    obtain ⟨_, hu, rfl⟩ := hv
    obtain rfl := fills_nil.1 hu
    rw [List.append_nil]
    exact .path hp
  | @literal q text hq hnot =>
    rw [Param.literal, Param.print, fills_text] at hv
    obtain ⟨_, hu, rfl⟩ := hv
    obtain rfl := fills_nil.1 hu
    rw [List.append_nil]
    exact .literal (isQuote_quoteOf text) (quoteOf_notMem hq hnot)
  | @call name params b w b' hb hn hw hb' =>
    rw [Param.call, Param.print, fills_text] at hv
    obtain ⟨_, hu, rfl⟩ := hv
    obtain ⟨x, _, hx, hy, rfl⟩ := fills_append.1 hu
    simp only [fills_text, fills_nil] at hy
    obtain ⟨_, rfl, rfl⟩ := hy
    simpa using ParamText.call blanks_nil hn (hi hw hx) blanks_nil

theorem printable_argumentText (hi : Printable inner printParams) :
    Printable (ArgumentText inner) Argument.print := by
  rintro _ _ v ⟨hk, -, -, hw⟩ hv
  rw [Argument.print, fills_text] at hv
  obtain ⟨u, hu, rfl⟩ := hv
  simpa using ArgumentText.mk hk blanks_nil blanks_nil (printable_paramText hi hw hu)

theorem printable_otherwiseText (hbody : Printable body printBlock) {t : Trim}
    {o : Option Block} (h : OtherwiseText body o t w) (hv : Fills (printOtherwise t o) v) :
    OtherwiseText body o t v := by
  cases h with
  | none =>
    obtain rfl := fills_nil.1 hv
    exact .none
  | some hb hb' hu =>
    rw [printOtherwise, fills_append] at hv
    simp only [fills_tagPieces, fills_text, fills_nil] at hv
    obtain ⟨_, x, ⟨_, ⟨_, rfl, rfl⟩, rfl⟩, hx, rfl⟩ := hv
    simpa using OtherwiseText.some blanks_nil blanks_nil (hbody hu hx)

theorem fills_closing {name : String} {t : Trim} :
    Fills (tagPieces .escaped t [.text ('/' :: name.toList)]) v ↔ v = closingText name t := by
  simp only [fills_tagPieces, fills_text, fills_nil]
  constructor
  · rintro ⟨_, ⟨_, rfl, rfl⟩, rfl⟩
    simp [closingText]
  · rintro rfl
    exact ⟨_, ⟨_, rfl, rfl⟩, by simp [closingText]⟩

theorem spaced_of_fills_printParams (hi : Printable inner printParams) {params : List Param}
    (h : ∀ p ∈ params, ∃ w, ParamText inner p w) (hv : Fills (printParams params) v) :
    Spaced (ParamText inner) params v := by
  rw [printParams_eq] at hv
  exact (printable_paramText hi).spaced h hv

theorem printable_nameText : Printable NameText fun y => [.text y.toList] := by
  rintro y _ v ⟨hy, -⟩ hv
  simp only [fills_text, fills_nil] at hv
  obtain ⟨_, rfl, rfl⟩ := hv
  exact ⟨hy, by simp⟩

theorem printable_tagText (hi : Printable inner printParams) (hbody : Printable body printBlock) :
    Printable (TagText inner body) Node.print := by
  intro n w v h hv
  cases h with
  | reference hb hp he hb' =>
    rw [Node.print] at hv
    simp only [fills_tagPieces, fills_text, fills_nil] at hv
    obtain ⟨_, ⟨_, rfl, rfl⟩, rfl⟩ := hv
    simpa using TagText.reference blanks_nil hp he blanks_nil
  | helper hb hn hne he hw hb' =>
    rw [Node.print] at hv
    simp only [fills_tagPieces, fills_text] at hv
    obtain ⟨_, ⟨x, hx, rfl⟩, rfl⟩ := hv
    have hs := spaced_of_fills_printParams hi hw.exists_text hx
    simpa using TagText.helper blanks_nil hn hne he hs.trailing blanks_nil
  | plainPartial hb hn he hb' =>
    rw [Node.print] at hv
    simp only [fills_tagPieces, fills_text, fills_gap, printArguments, fills_nil] at hv
    obtain ⟨_, ⟨_, ⟨g, _, -, hg, ⟨_, rfl, rfl⟩, rfl⟩, rfl⟩, rfl⟩ := hv
    simpa using TagText.plainPartial hg hn he blanks_nil
  | boundPartial hb hn hne he hw hb' =>
    rw [Node.print] at hv
    simp only [fills_tagPieces, fills_text, fills_gap, printArguments_eq] at hv
    obtain ⟨_, ⟨_, ⟨g, _, -, hg, ⟨x, hx, rfl⟩, rfl⟩, rfl⟩, rfl⟩ := hv
    have hs := (printable_argumentText hi).spaced hw.exists_text hx
    simpa using TagText.boundPartial hg hn hne he hs blanks_nil
  | block hn helse he hw hb hu hv' =>
    rw [Node.print] at hv
    simp only [Option.getD_some, fills_append, fills_closing] at hv
    obtain ⟨_, _, htag, ⟨u, _, hfirst, ⟨e, _, hother, rfl, rfl⟩, rfl⟩, rfl⟩ := hv
    simp only [fills_tagPieces, fills_text] at htag
    obtain ⟨_, ⟨x, hx, rfl⟩, rfl⟩ := htag
    have hs := spaced_of_fills_printParams hi hw.exists_text hx
    simpa using TagText.block hn helse he hs blanks_nil (hbody hu hfirst)
      (printable_otherwiseText hbody hv' hother)
  | binder hn hne hw hg0 hg hb₁ hb₂ hx hnames hb₃ hb₄ hu he =>
    rw [Node.print] at hv
    simp only [fills_append, fills_closing] at hv
    obtain ⟨_, _, htag, ⟨u, _, hfirst, ⟨e, _, hother, rfl, rfl⟩, rfl⟩, rfl⟩ := hv
    simp only [fills_tagPieces, fills_text, fills_append, fills_gap, printNames, fills_nil,
      List.cons_append] at htag
    obtain ⟨_, ⟨_, ⟨x, _, hx', ⟨g, _, hg0, hg, ⟨_, ⟨g', _, -, hg', ⟨_, ⟨_, ⟨y, _, hy,
      ⟨_, rfl, rfl⟩, rfl⟩, rfl⟩, rfl⟩, rfl⟩, rfl⟩, rfl⟩, rfl⟩, rfl⟩, rfl⟩ := htag
    have hs := spaced_of_fills_printParams hi hw.exists_text hx'
    have hns := printable_nameText.spaced hnames.exists_text hy
    simpa using TagText.binder hn hne hs hg0 hg hg' blanks_nil hx hns blanks_nil blanks_nil
      (hbody hu hfirst) (printable_otherwiseText hbody he hother)

/-- The printed nodes end in an opening brace only if they did so as they were written. -/
theorem printable_blockText (hi : Printable inner printParams) (hbody : Printable body printBlock)
    {b : Block} (h : BlockText (TagText inner body) b w) (hv : Fills (printBlock b) v) :
    BlockText (TagText inner body) b v ∧ (w.getLast? ≠ some '{' → v.getLast? ≠ some '{') := by
  induction h generalizing v with
  | nil =>
    obtain rfl := fills_nil.1 hv
    exact ⟨.nil, id⟩
  | @content t ht =>
    simp only [printBlock, Node.print, List.append_nil, fills_text, fills_nil] at hv
    obtain ⟨_, rfl, rfl⟩ := hv
    rw [List.append_nil]
    exact ⟨.content ht, id⟩
  | @contentTag t n b w u ht hlast hw _ ih =>
    simp only [printBlock, Node.print, fills_text, fills_append, fills_nil] at hv
    obtain ⟨_, _, ⟨_, rfl, rfl⟩, ⟨x, y, hx, hy, rfl⟩, rfl⟩ := hv
    have htag := printable_tagText hi hbody hw hx
    obtain ⟨htext, hend⟩ := ih hy
    rw [List.append_nil, ← List.append_assoc]
    refine ⟨.contentTag ht hlast htag htext, fun h => ?_⟩
    rw [List.append_assoc]
    refine getLast?_append_ne hlast (getLast?_append_ne ?_ (hend (getLast?_of_append h)))
    simp [getLast?_tagText htag]
  | @tag n b w u hw _ ih =>
    rw [printBlock, fills_append] at hv
    obtain ⟨x, y, hx, hy, rfl⟩ := hv
    have htag := printable_tagText hi hbody hw hx
    obtain ⟨htext, hend⟩ := ih hy
    refine ⟨.tag htag htext, fun h => getLast?_append_ne ?_ (hend (getLast?_of_append h))⟩
    simp [getLast?_tagText htag]

end

/-! ## Templates -/

theorem printable_innerText (k : Nat) : Printable (InnerText k) printParams := by
  induction k with
  | zero => exact fun _ _ _ h => h.elim
  | succ k ih =>
    intro params w v h hv
    exact (spaced_of_fills_printParams ih h.exists_text hv).trailing

theorem printable_bodyText (k : Nat) : Printable (BodyText k) printBlock := by
  induction k with
  | zero => exact fun _ _ _ h => h.elim
  | succ k ih =>
    intro b w v h hv
    obtain ⟨htext, hend⟩ := printable_blockText (printable_innerText k) ih h.1 hv
    exact ⟨htext, hend h.2⟩

/-- However the gaps of a printed template are filled, it is read as the template it was printed
from, within the same limit. -/
theorem parseWithin_print {limit : Nat} {text : String} {b : Block}
    (h : parseWithin limit text = .ok b) {w : String} (hw : Fills (printBlock b) w.toList) :
    parseWithin limit w = .ok b :=
  parseChars_eq_ok_iff.2 (printable_blockText (printable_innerText limit)
    (printable_bodyText limit) (parseChars_eq_ok_iff.1 h) hw).1

def markedBlock : Block :=
  [.content "a",
    .helper .raw "if" [.call "eq" [.path "x.y", .literal "it's"], .path "else", .path "z"]
      (some [.reference .escaped "b" .none])
      (some [.boundPartial "p/q" [.mk "k" (.path "v")] .none]) .none
      (some ⟨⟨true, false⟩, ⟨false, true⟩, .none⟩),
    .content "\x7d"]

/-- A text for it, with more blanks than it needs and fewer than printed. -/
def markedText : String :=
  "a\x7b\x7b~#if ( eq x.y \"it\x27s\") else z \x7d\x7d\x7b\x7bb\x7d\x7d" ++
    "\x7b\x7b else ~\x7d\x7d\x7b\x7b>p/q k = v\x7d\x7d\x7b\x7b/if\x7d\x7d\x7d"

theorem parseWithin_print_markedBlock :
    parseWithin 1 markedText = .ok markedBlock ∧
      parseWithin 1 (String.ofList (fill ['\n', ' '] (printBlock markedBlock))) =
        .ok markedBlock := by
  have h : parseWithin 1 markedText = .ok markedBlock := by cbv
  refine ⟨h, parseWithin_print h ?_⟩
  rw [String.toList_ofList]
  exact fills_fill (by decide) (List.all_eq_true.1 (by decide)) _

end BraceTemplate
