import BraceTemplate.Proofs.Grammar.Text

/-!
# Written forms of templates

`Written k b w` says that the text `w` is one way to write the block `b` with at most `k` levels
of blocks and subexpressions inside each other. A block has many written forms: blanks between
the parts of a tag are free, and a quoted text may have a choice of quotes.

The relations for parameters and tags take the relation for what stands one level further inside
as an argument, `inner` for the parameters of a subexpression and `body` for the nodes of a
block, and `InnerText` and `BodyText` tie the knot. So an induction on the number of levels needs
no induction on trees.
-/

namespace BraceTemplate

/-! ## Lists -/

/-- Each item is written behind at least one blank. -/
inductive Spaced {α : Type} (T : α → List Char → Prop) : List α → List Char → Prop
  | nil : Spaced T [] []
  | cons {g w v : List Char} {a : α} {as : List α} :
      g ≠ [] → Blanks g → T a w → Spaced T as v → Spaced T (a :: as) (g ++ w ++ v)

/-- Like `Spaced`, but where the first item starts with no character of a name it needs no blank
before it. -/
inductive Trailing {α : Type} (T : α → List Char → Prop) : List α → List Char → Prop
  | nil : Trailing T [] []
  | cons {g w v : List Char} {a : α} {as : List α} :
      Blanks g → (g = [] → headIs isNameChar w = false) → T a w → Spaced T as v →
      Trailing T (a :: as) (g ++ w ++ v)

section
variable {α : Type} {T : α → List Char → Prop} {as : List α} {w : List Char}

theorem Spaced.exists_text (h : Spaced T as w) : ∀ a ∈ as, ∃ w, T a w := by
  induction h with
  | nil => simp
  | cons _ _ hw _ ih => simpa using ⟨⟨_, hw⟩, ih⟩

theorem Trailing.exists_text (h : Trailing T as w) : ∀ a ∈ as, ∃ w, T a w := by
  cases h with
  | nil => simp
  | cons _ _ hw hs => simpa using ⟨⟨_, hw⟩, hs.exists_text⟩

end

def NameText (name : String) (w : List Char) : Prop := IsName name ∧ w = name.toList

/-! ## Parameters -/

/-- The last parameter is the variable `else`. It cannot stand at the end of a tag. -/
def EndsInElse (params : List Param) : Prop := params.getLast? = some (.path "else")

section
variable (inner : List Param → List Char → Prop) (body : Block → List Char → Prop)

inductive ParamText : Param → List Char → Prop
  | path {p : String} : IsPath p → ParamText (.path p) p.toList
  | literal {q : Char} {text : String} : isQuote q → q ∉ text.toList →
      ParamText (.literal text) ([q] ++ text.toList ++ [q])
  | call {name : String} {params : List Param} {b w b' : List Char} :
      Blanks b → IsName name → inner params w → Blanks b' →
      ParamText (.call name params) (['('] ++ b ++ name.toList ++ w ++ b' ++ [')'])

inductive ArgumentText : Argument → List Char → Prop
  | mk {key : String} {value : Param} {b b' w : List Char} :
      IsName key → Blanks b → Blanks b' → ParamText inner value w →
      ArgumentText (.mk key value) (key.toList ++ b ++ ['='] ++ b' ++ w)

/-! ## Tags -/

/-- The written forms of the alternative of a block, with the markers on its tag. -/
inductive OtherwiseText : Option Block → Trim → List Char → Prop
  | none : OtherwiseText none .none []
  | some {l r : Bool} {b b' u : List Char} {otherwise : Block} :
      Blanks b → Blanks b' → body otherwise u →
      OtherwiseText (some otherwise) ⟨l, r⟩
        (Output.escaped.opening ++ mark l ++ b ++ elseWord ++ b' ++ mark r ++
          Output.escaped.closing ++ u)

def closingText (name : String) (t : Trim) : List Char :=
  Output.escaped.opening ++ mark t.left ++ ['/'] ++ name.toList ++ mark t.right ++
    Output.escaped.closing

inductive TagText : Node → List Char → Prop
  | reference {output : Output} {l r : Bool} {b b' : List Char} {path : String} :
      Blanks b → IsPath path → path ≠ "else" → Blanks b' →
      TagText (.reference output path ⟨l, r⟩)
        (output.opening ++ mark l ++ b ++ path.toList ++ b' ++ mark r ++ output.closing)
  | helper {output : Output} {l r : Bool} {b w b' : List Char} {name : String}
      {params : List Param} :
      Blanks b → IsName name → params ≠ [] → ¬ EndsInElse params →
      Trailing (ParamText inner) params w → Blanks b' →
      TagText (.helper output name params none none ⟨l, r⟩ none)
        (output.opening ++ mark l ++ b ++ name.toList ++ w ++ b' ++ mark r ++ output.closing)
  | plainPartial {l r : Bool} {b b' : List Char} {name : String} :
      Blanks b → IsWord isPartialNameChar name → name ≠ "else" → Blanks b' →
      TagText (.plainPartial name [] ⟨l, r⟩)
        (Output.escaped.opening ++ mark l ++ ['>'] ++ b ++ name.toList ++ b' ++ mark r ++
          Output.escaped.closing)
  | boundPartial {l r : Bool} {b w b' : List Char} {name : String} {args : List Argument} :
      Blanks b → IsWord isPartialNameChar name → args ≠ [] →
      ¬ EndsInElse (args.map Argument.value) → Spaced (ArgumentText inner) args w → Blanks b' →
      TagText (.boundPartial name args ⟨l, r⟩)
        (Output.escaped.opening ++ mark l ++ ['>'] ++ b ++ name.toList ++ w ++ b' ++ mark r ++
          Output.escaped.closing)
  | block {l r : Bool} {w b u v : List Char} {name : String} {params : List Param}
      {first : Block} {otherwise : Option Block} {between closing : Trim} :
      IsName name → (params = [] → name ≠ "else") → ¬ EndsInElse params →
      Spaced (ParamText inner) params w → Blanks b → body first u →
      OtherwiseText body otherwise between v →
      TagText (.helper .raw name params (some first) otherwise .none
          (some ⟨⟨l, r⟩, between, closing⟩))
        (Output.escaped.opening ++ mark l ++ ['#'] ++ name.toList ++ w ++ b ++ mark r ++
          Output.escaped.closing ++ u ++ v ++ closingText name closing)
  | binder {l r : Bool} {w g b₁ b₂ v b₃ b₄ u e : List Char} {name x : String}
      {params : List Param} {names : List String} {first : Block} {otherwise : Option Block}
      {closing : Trim} :
      IsName name → params ≠ [] → Spaced (ParamText inner) params w → g ≠ [] → Blanks g →
      Blanks b₁ → Blanks b₂ → IsName x → Spaced NameText names v → Blanks b₃ → Blanks b₄ →
      body first u → OtherwiseText body otherwise .none e →
      TagText (.binder name params (x :: names) first otherwise ⟨⟨l, r⟩, .none, closing⟩)
        (Output.escaped.opening ++ mark l ++ ['#'] ++ name.toList ++ w ++ g ++ ['a', 's'] ++
          b₁ ++ ['|'] ++ b₂ ++ x.toList ++ v ++ b₃ ++ ['|'] ++ b₄ ++ mark r ++
          Output.escaped.closing ++ u ++ e ++ closingText name closing)

end

/-! ## Blocks -/

/-- A text without two opening braces in a row. -/
def IsContent (t : String) : Prop := t.toList ≠ [] ∧ Grammar.beforeTag t.toList = t.toList

/-- The written forms of the nodes of a block. Text runs up to a tag or to the end, and it cannot
end in an opening brace before a tag. -/
inductive BlockText (tag : Node → List Char → Prop) : Block → List Char → Prop
  | nil : BlockText tag [] []
  | content {t : String} : IsContent t → BlockText tag [.content t] t.toList
  | contentTag {t : String} {n : Node} {b : Block} {w v : List Char} :
      IsContent t → t.toList.getLast? ≠ some '{' → tag n w → BlockText tag b v →
      BlockText tag (.content t :: n :: b) (t.toList ++ w ++ v)
  | tag {n : Node} {b : Block} {w v : List Char} :
      tag n w → BlockText tag b v → BlockText tag (n :: b) (w ++ v)

/-- The written forms of the parameters inside a subexpression, itself one of `k` levels. -/
def InnerText : Nat → List Param → List Char → Prop
  | 0, _, _ => False
  | k + 1, params, w => Trailing (ParamText (InnerText k)) params w

/-- The written forms of the body of a block, itself one of `k` levels. -/
def BodyText : Nat → Block → List Char → Prop
  | 0, _, _ => False
  | k + 1, b, w =>
    BlockText (TagText (InnerText k) (BodyText k)) b w ∧ w.getLast? ≠ some '{'

/-- The written forms of a block whose parts nest at most `k` levels deep. -/
def Written (k : Nat) : Block → List Char → Prop :=
  BlockText (TagText (InnerText k) (BodyText k))

end BraceTemplate
