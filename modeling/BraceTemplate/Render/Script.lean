import BraceTemplate.Render.Context
import BraceTemplate.Template.Node
import BraceTemplate.Value.Display

/-!
# Scripts

A helper is code of the host. All it can do to a rendering is to make requests: to read and bind
variables, to open and close scopes, to have a block or a node rendered. A `Script` is such code
as data, a tree that branches on the answers to its requests. So what helpers may do is a matter
of which scripts there are, and every script makes finitely many requests, whatever the answers.

A request that renders is answered with the result even if that is an error. `Script.ok` passes
an error on, and `Script.attempt` catches it.
-/

namespace BraceTemplate

inductive Request where
  /-- The value of a variable. -/
  | get (path : String)
  /-- Binds a name in the innermost scope. -/
  | bind (key : String) (value : Value)
  | openScope
  | closeScope
  | enter
  | leave
  /-- Where arguments of partials are bound. -/
  | scoping
  /-- The text as it enters the output of a tag with two braces. -/
  | escape (text : String)
  | renderBlock (block : Block)
  | renderNode (node : Node)
  /-- Calls a registered helper, if there is one of the name. -/
  | callHelper (name : String) (params : List Param) (body otherwise : Option Block)
  /-- Calls a registered binder, if there is one of the name. -/
  | callBinder (name : String) (params : List Param) (names : List String) (body : Block)
      (otherwise : Option Block)
  /-- Renders a registered partial, if there is one of the name. -/
  | callPartial (name : String)

abbrev Request.Answer : Request → Type
  | get _ => Value
  | bind _ _ => Unit
  | openScope => Unit
  | closeScope => Unit
  | enter => Except RenderError Unit
  | leave => Unit
  | scoping => Scoping
  | escape _ => String
  | renderBlock _ => Except RenderError String
  | renderNode _ => Except RenderError String
  | callHelper _ _ _ _ => Option (Except RenderError String)
  | callBinder _ _ _ _ _ => Option (Except RenderError String)
  | callPartial _ => Option (Except RenderError String)

/-- Host code that ends in an `α` or in an error. -/
inductive Script (α : Type) where
  | done (a : α)
  | fail (error : RenderError)
  | ask (request : Request) (next : request.Answer → Script α)

namespace Script

variable {α β : Type}

/-- Goes on with `f` where `s` is done; an error ends the whole. -/
def andThen (s : Script α) (f : α → Script β) : Script β :=
  match s with
  | done a => f a
  | fail e => fail e
  | ask r next => ask r fun a => (next a).andThen f

instance : Monad Script where
  pure := done
  bind := andThen

def request (r : Request) : Script r.Answer := ask r done

/-- Goes on with a result, or ends in its error. -/
def ok : Except RenderError α → Script α
  | .ok a => done a
  | .error e => fail e

def get (path : String) : Script Value := request (.get path)

def bind (key : String) (value : Value) : Script Unit := request (.bind key value)

def openScope : Script Unit := request .openScope

def closeScope : Script Unit := request .closeScope

def block (b : Block) : Script String := do ok (← request (.renderBlock b))

def node (n : Node) : Script String := do ok (← request (.renderNode n))

/-- The value of a parameter: that of a variable, or the output of a node as a string. -/
def value : Param → Script Value
  | .path path => get path
  | .node n => do return .string (← node n)

def text : Param → Script String
  | .path path => do return (← get path).display
  | .node n => node n

/-- Turns an error into a result, so that it does not end the whole. -/
def attempt (s : Script α) : Script (Except RenderError α) :=
  match s with
  | done a => done (.ok a)
  | fail e => done (.error e)
  | ask r next => ask r fun a => (next a).attempt

/-- Runs `cleanup` after `s`, also if that ends in an error. -/
def andFinally (s : Script α) (cleanup : Script Unit) : Script α := do
  let result ← s.attempt
  cleanup
  ok result

/-- Runs `s` in a scope of its own. -/
def inScope (s : Script α) : Script α := do
  openScope
  s.andFinally closeScope

end Script

/-- A helper: host code that sees the parameters of its call, its body and its alternative, all
unrendered. -/
abbrev Helper := List Param → Option Block → Option Block → Script String

/-- A binder: a helper of blocks that also sees the names it is to bind. -/
abbrev Binder := List Param → List String → Block → Option Block → Script String

end BraceTemplate
