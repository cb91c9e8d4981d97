import BraceTemplate.Grammar.Parse
import BraceTemplate.Render.RenderError
import BraceTemplate.Value.Path

/-!
# The state of a rendering

A `Context` holds the data of a template and what changes while it renders: the open scopes with
their bindings, and the number of blocks that are being rendered inside each other. A name is
looked up in the scopes, innermost first, and then in the data.
-/

namespace BraceTemplate

/-- Where the arguments of a partial are bound: in a scope of their own, or in the caller's. -/
inductive Scoping where
  | isolated
  | shared
  deriving DecidableEq, Repr

abbrev Scope := Table Value

/-- The state of a rendering. There is always an innermost scope. -/
structure Context where
  data : Value := .null
  maxDepth : Nat := defaultDepth
  scoping : Scoping := .isolated
  /-- The innermost scope. -/
  innermost : Scope := []
  /-- The scopes around it, the outermost last. -/
  outer : List Scope := []
  /-- The number of blocks being rendered. -/
  depth : Nat := 0

namespace Context

/-- All open scopes, innermost first. -/
def scopes (ctx : Context) : List Scope := ctx.innermost :: ctx.outer

def scopeCount (ctx : Context) : Nat := ctx.outer.length + 1

/-- The binding of a name in the innermost scope that has one. -/
def binding? (ctx : Context) (name : String) : Option Value :=
  ctx.scopes.findSome? (Table.get? · name)

/-- What a dotted path names: its first segment is a bound name, else the whole path leads into
the data. -/
def find? (ctx : Context) (path : String) : Option Value :=
  match segments path with
  | [] => none
  | head :: rest =>
    match ctx.binding? head with
    | some v => v.follow rest
    | none => ctx.data.follow (head :: rest)

/-- The value of a variable, null if it is missing. -/
def get (ctx : Context) (path : String) : Value :=
  (ctx.find? path).getD .null

def bind (ctx : Context) (key : String) (value : Value) : Context :=
  { ctx with innermost := Table.insert ctx.innermost key value }

def openScope (ctx : Context) : Context :=
  { ctx with innermost := [], outer := ctx.innermost :: ctx.outer }

/-- Drops the innermost scope, unless it is the only one. -/
def closeScope (ctx : Context) : Context :=
  match ctx.outer with
  | [] => ctx
  | s :: rest => { ctx with innermost := s, outer := rest }

/-- Counts a block that starts to render, if one more is allowed. -/
def enter (ctx : Context) : Except RenderError Context :=
  if ctx.maxDepth ≤ ctx.depth then .error (.tooDeep ctx.maxDepth)
  else .ok { ctx with depth := ctx.depth + 1 }

def leave (ctx : Context) : Context :=
  { ctx with depth := ctx.depth - 1 }

end Context
end BraceTemplate
