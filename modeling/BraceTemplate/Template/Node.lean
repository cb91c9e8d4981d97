import BraceTemplate.Template.Trim

/-!
# Template trees

A template is a block: a list of nodes that render one after the other. The parser builds such
trees, helpers receive parts of them unrendered, and a host may build any tree by hand, also one
that no text gives.
-/

namespace BraceTemplate

/-- How the value of a tag enters the output: escaped from two braces, raw from three. -/
inductive Output where
  | escaped
  | raw
  deriving DecidableEq, Repr

mutual

inductive Node where
  /-- Text that stands outside every tag. -/
  | content (text : String)
  /-- A quoted text, as a parameter. -/
  | literal (text : String)
  /-- A reference to a variable, or to a helper without parameters. -/
  | reference (output : Output) (path : String) (trim : Trim)
  /-- A call of a helper. A block helper has a body and perhaps an alternative, and `marks` on its
  tags; an inline call and a subexpression have none of these. -/
  | helper (output : Output) (name : String) (params : List Param)
      (body otherwise : Option (List Node)) (trim : Trim) (marks : Option TrimMarks)
  /-- A call of a binder, a block helper that is given names to bind for its body. -/
  | binder (name : String) (params : List Param) (names : List String)
      (body : List Node) (otherwise : Option (List Node)) (marks : TrimMarks)
  /-- A partial rendered as it stands; the arguments are not looked at. -/
  | plainPartial (name : String) (args : List Argument) (trim : Trim)
  /-- A partial rendered with its arguments bound. -/
  | boundPartial (name : String) (args : List Argument) (trim : Trim)
  /-- A nested block. -/
  | block (items : List Node)

/-- A parameter of a helper: a variable, or a node whose output is the value. -/
inductive Param where
  | path (path : String)
  | node (node : Node)

inductive Argument where
  | mk (key : String) (value : Param)

end

/-- Nodes that render one after the other. -/
abbrev Block := List Node

instance : Inhabited Node := ⟨.content ""⟩
instance : Inhabited Param := ⟨.path ""⟩
instance : Inhabited Argument := ⟨.mk "" default⟩

def Param.literal (text : String) : Param := .node (.literal text)

def Param.call (name : String) (params : List Param) : Param :=
  .node (.helper .raw name params none none .none none)

def Argument.key : Argument → String
  | .mk key _ => key

def Argument.value : Argument → Param
  | .mk _ value => value

/-! ## Equality of trees -/

mutual

/-- Whether two nodes are the same tree. -/
def Node.beq : Node → Node → Bool
  | .content s, .content t => s == t
  | .literal s, .literal t => s == t
  | .reference o p t, .reference o' p' t' => o == o' && p == p' && t == t'
  | .helper o n ps b e t m, .helper o' n' ps' b' e' t' m' =>
    o == o' && n == n' && beqParams ps ps' && beqBody b b' && beqBody e e' && t == t' && m == m'
  | .binder n ps xs b e m, .binder n' ps' xs' b' e' m' =>
    n == n' && beqParams ps ps' && xs == xs' && beqBlock b b' && beqBody e e' && m == m'
  | .plainPartial n as t, .plainPartial n' as' t' => n == n' && beqArguments as as' && t == t'
  | .boundPartial n as t, .boundPartial n' as' t' =>
    n == n' && beqArguments as as' && t == t'
  | .block b, .block b' => beqBlock b b'
  | _, _ => false

def Param.beq : Param → Param → Bool
  | .path p, .path q => p == q
  | .node m, .node n => m.beq n
  | _, _ => false

def beqBlock : List Node → List Node → Bool
  | [], [] => true
  | m :: ms, n :: ns => m.beq n && beqBlock ms ns
  | _, _ => false

/-- Whether two bodies are the same tree, or both absent. -/
def beqBody : Option (List Node) → Option (List Node) → Bool
  | none, none => true
  | some a, some b => beqBlock a b
  | _, _ => false

def beqParams : List Param → List Param → Bool
  | [], [] => true
  | p :: ps, q :: qs => p.beq q && beqParams ps qs
  | _, _ => false

def beqArguments : List Argument → List Argument → Bool
  | [], [] => true
  | .mk k p :: as, .mk l q :: bs => k == l && p.beq q && beqArguments as bs
  | _, _ => false

end

instance : BEq Node := ⟨Node.beq⟩
instance : BEq Param := ⟨Param.beq⟩

end BraceTemplate
