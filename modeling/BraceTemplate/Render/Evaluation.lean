import BraceTemplate.Render.Registry
import BraceTemplate.Render.Rendering

/-!
# Evaluation

A task is a block or a node to render, or a script to run. `step` says what a task does in terms
of the smaller tasks it calls, and `evaluate` applies it to itself with a budget for the calls
that are open at once. Partials may include each other and helpers may render what they like, so
no measure on templates alone bounds these calls; the depth limit of the context does.
-/

namespace BraceTemplate

inductive Task where
  | block (b : Block)
  | node (n : Node)
  | script (code : Script String)

def Partial.task : Partial → Task
  | template root => .block root
  | script code => .script code

namespace Evaluation

variable (reg : Registry) (call : Task → Rendering String)

/-! ## Scripts -/

def answer : (r : Request) → Rendering r.Answer
  | .get path => .read (·.get path)
  | .bind key value => .modify (·.bind key value)
  | .openScope => .modify (·.openScope)
  | .closeScope => .modify (·.closeScope)
  | .enter => .attempt .enter
  | .leave => .modify (·.leave)
  | .scoping => .read (·.scoping)
  | .escape text => .succeed (reg.escape text)
  | .renderBlock b => .attempt (call (.block b))
  | .renderNode n => .attempt (call (.node n))
  | .callHelper name params body otherwise =>
    match Table.get? reg.helpers name with
    | none => .succeed none
    | some h => do return some (← .attempt (call (.script (h params body otherwise))))
  | .callBinder name params names body otherwise =>
    match Table.get? reg.binders name with
    | none => .succeed none
    | some h => do return some (← .attempt (call (.script (h params names body otherwise))))
  | .callPartial name =>
    match Table.get? reg.partials name with
    | none => .succeed none
    | some p => do return some (← .attempt (call p.task))

def run {α : Type} : Script α → Rendering α
  | .done a => .succeed a
  | .fail e => .throw e
  | .ask r next => (answer reg call r).andThen fun a => run (next a)

/-! ## Parameters -/

def value : Param → Rendering Value
  | .path path => .read (·.get path)
  | .node n => do return .string (← call (.node n))

def text : Param → Rendering String
  | .path path => do return (← Rendering.read (·.get path)).display
  | .node n => call (.node n)

/-- Binds the arguments of a partial one after the other; each sees the ones before it. -/
def bindArguments : List Argument → Rendering Unit
  | [] => .succeed ()
  | .mk key param :: rest => do
    let v ← value call param
    Rendering.modify (·.bind key v)
    bindArguments rest

/-! ## Nodes -/

/-- Calls the helper that stands in for a missing one, with the missing name as its parameter. -/
def missingHelper (name : String) : Rendering String :=
  match Table.get? reg.helpers Registry.fallback with
  | some h => call (.script (h [.literal name] none none))
  | none => .throw (.noHelper name)

def callHelper (name : String) (params : List Param) (body otherwise : Option Block) :
    Rendering String :=
  match Table.get? reg.helpers name with
  | some h => call (.script (h params body otherwise))
  | none => missingHelper reg call name

def callBinder (name : String) (params : List Param) (names : List String) (body : Block)
    (otherwise : Option Block) : Rendering String :=
  match Table.get? reg.binders name with
  | some h => call (.script (h params names body otherwise))
  | none => missingHelper reg call name

def callPartial (name : String) (trim : Trim) : Rendering String :=
  match Table.get? reg.partials name with
  | some p => do return trim.apply (← call p.task)
  | none => .throw (.noPartial name)

/-- Renders in the scope that the arguments of a partial are bound in. -/
def inArgumentScope {α : Type} (p : Rendering α) : Rendering α := fun ctx =>
  match ctx.scoping with
  | .isolated => p.andFinally Context.closeScope ctx.openScope
  | .shared => p ctx

/-- The output of a node. A helper named like the path of a variable wins over the variable.
Inline calls are trimmed, blocks are not, and escaping comes last. -/
def node : Node → Rendering String
  | .content text => .succeed text
  | .literal text => .succeed text
  | .reference output path trim => do
    let text ← match Table.get? reg.helpers path with
      | some h => call (.script (h [] none none))
      | none => text call (.path path)
    return reg.emit output (trim.apply text)
  | .helper output name params body otherwise trim _ => do
    let text ← callHelper reg call name params body otherwise
    return reg.emit output (if body.isSome then text else trim.apply text)
  | .binder name params names body otherwise _ =>
    callBinder reg call name params names body otherwise
  | .plainPartial name _ trim => callPartial reg call name trim
  | .boundPartial name args trim =>
    inArgumentScope do
      bindArguments call args
      callPartial reg call name trim
  | .block b => call (.block b)

def items : List Node → Rendering String
  | [] => .succeed ""
  | n :: rest => do
    let first ← call (.node n)
    let others ← items rest
    return first ++ others

/-- The output of a block, which counts as one level of depth. -/
def block (b : Block) : Rendering String := do
  Rendering.enter
  (items call b).andFinally Context.leave

/-- What a task does, given what the tasks do that it calls. -/
def step : Task → Rendering String
  | .block b => block call b
  | .node n => node reg call n
  | .script code => run reg call code

end Evaluation

/-- Renders a task with at most `budget` calls open at once. -/
def evaluate (reg : Registry) : Nat → Task → Rendering String
  | 0, _ => .exhausted
  | budget + 1, t => Evaluation.step reg (evaluate reg budget) t

/-- A budget that no rendering uses up: there is no room for so many open calls. -/
def openCalls : Nat := Nat.pow 2 62

/-- There is room for a call inside a call. -/
theorem openCalls_eq : ∃ budget, openCalls = budget + 1 + 1 := ⟨openCalls - 2, by decide⟩

def Block.render (reg : Registry) (b : Block) : Rendering String :=
  evaluate reg openCalls (.block b)

def Node.render (reg : Registry) (n : Node) : Rendering String :=
  evaluate reg openCalls (.node n)

def Param.evaluate (reg : Registry) (p : Param) : Rendering Value :=
  Evaluation.value (BraceTemplate.evaluate reg openCalls) p

def Param.render (reg : Registry) (p : Param) : Rendering String :=
  Evaluation.text (BraceTemplate.evaluate reg openCalls) p

/-- Renders a block against `data`, with an otherwise fresh context. -/
def Block.renderWith (reg : Registry) (data : Value) (b : Block) :
    Option (Except RenderError String) :=
  (b.render reg { data := data }).map (·.1)

def renderTemplate (reg : Registry) (data : Value) (text : String) :
    Option (Except RenderError String) :=
  match parse text with
  | .error e => some (.error (.noTemplate e))
  | .ok b => b.renderWith reg data

end BraceTemplate
