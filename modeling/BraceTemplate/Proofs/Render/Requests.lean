import BraceTemplate.Proofs.Render.Contract
import BraceTemplate.Proofs.Render.History
import BraceTemplate.Proofs.Render.Scripts

/-!
# Rendering in requests

The evaluator needs no more of a context than host code does: `Task.code` writes what it does for a
task as a script, and `step_eq_run` shows that to run this script is to carry out the task. So every
change that a rendering makes to a context is the answer to a request. `Passes` are the contexts
between two of these, also inside the blocks, the partials and the host code that are rendered on
the way, and each of them is what some history leaves (`Passes.after`).
-/

namespace BraceTemplate

/-! ## Tasks as scripts -/

namespace Script

def emit : Output → String → Script String
  | .escaped, text => request (.escape text)
  | .raw, text => return text

/-- Calls the helper that stands in for a missing one. -/
def missingHelper (name : String) : Script String := do
  match ← request (.callHelper Registry.fallback [.literal name] none none) with
  | some result => ok result
  | none => fail (.noHelper name)

def callHelper (name : String) (params : List Param) (body otherwise : Option Block) :
    Script String := do
  match ← request (.callHelper name params body otherwise) with
  | some result => ok result
  | none => missingHelper name

def callBinder (name : String) (params : List Param) (names : List String) (body : Block)
    (otherwise : Option Block) : Script String := do
  match ← request (.callBinder name params names body otherwise) with
  | some result => ok result
  | none => missingHelper name

def callPartial (name : String) (trim : Trim) : Script String := do
  match ← request (.callPartial name) with
  | some result => return trim.apply (← ok result)
  | none => fail (.noPartial name)

/-- The text of a variable, or the output of the helper that is named like it. -/
def reference (path : String) : Script String := do
  match ← request (.callHelper path [] none none) with
  | some result => ok result
  | none => text (.path path)

def bindArguments : List Argument → Script Unit
  | [] => return ()
  | .mk key param :: rest => do
    let v ← value param
    bind key v
    bindArguments rest

/-- Runs `s` in the scope that the arguments of a partial are bound in. -/
def inArgumentScope (s : Script String) : Script String := do
  match ← request .scoping with
  | .isolated => inScope s
  | .shared => s

def items : List Node → Script String
  | [] => return ""
  | n :: rest => do
    let first ← node n
    let others ← items rest
    return first ++ others

end Script

def Node.code : Node → Script String
  | .content text => return text
  | .literal text => return text
  | .reference output path trim => do
    let text ← Script.reference path
    Script.emit output (trim.apply text)
  | .helper output name params body otherwise trim _ => do
    let text ← Script.callHelper name params body otherwise
    Script.emit output (if body.isSome then text else trim.apply text)
  | .binder name params names body otherwise _ =>
    Script.callBinder name params names body otherwise
  | .plainPartial name _ trim => Script.callPartial name trim
  | .boundPartial name args trim =>
    Script.inArgumentScope do
      Script.bindArguments args
      Script.callPartial name trim
  | .block b => Script.block b

def Task.code : Task → Script String
  | .block b => do
    Script.ok (← Script.request .enter)
    (Script.items b).andFinally (Script.request .leave)
  | .node n => n.code
  | .script code => code

namespace Evaluation

open Rendering

variable {reg : Registry} {call : Task → Rendering String} {α β : Type}

/-! ## Running the script of a task -/

theorem run_pure (a : α) : run reg call (pure a : Script α) = pure a := rfl

theorem run_value (p : Param) : run reg call (Script.value p) = value call p := by
  cases p with
  | path path => exact run_request (.get path)
  | node n =>
    rw [Script.value, run_bind, run_node]
    rfl

theorem run_emit (output : Output) (text : String) :
    run reg call (Script.emit output text) = pure (reg.emit output text) := by
  cases output with
  | escaped => exact run_request (.escape text)
  | raw => rfl

theorem run_missingHelper (name : String) :
    run reg call (Script.missingHelper name) = missingHelper reg call name := by
  rw [Script.missingHelper, run_bind, run_request, missingHelper, answer]
  cases Table.get? reg.helpers Registry.fallback with
  | none => rfl
  | some h => simp only [bind_assoc, pure_bind, attempt_bind_ok]

theorem run_callHelper (name : String) (params : List Param) (body otherwise : Option Block) :
    run reg call (Script.callHelper name params body otherwise) =
      callHelper reg call name params body otherwise := by
  rw [Script.callHelper, run_bind, run_request, callHelper, answer]
  cases Table.get? reg.helpers name with
  | none => exact run_missingHelper name
  | some h => simp only [bind_assoc, pure_bind, attempt_bind_ok]

theorem run_callBinder (name : String) (params : List Param) (names : List String) (body : Block)
    (otherwise : Option Block) :
    run reg call (Script.callBinder name params names body otherwise) =
      callBinder reg call name params names body otherwise := by
  rw [Script.callBinder, run_bind, run_request, callBinder, answer]
  cases Table.get? reg.binders name with
  | none => exact run_missingHelper name
  | some h => simp only [bind_assoc, pure_bind, attempt_bind_ok]

theorem run_callPartial (name : String) (trim : Trim) :
    run reg call (Script.callPartial name trim) = callPartial reg call name trim := by
  rw [Script.callPartial, run_bind, run_request, callPartial, answer]
  cases Table.get? reg.partials name with
  | none => rfl
  | some p =>
    simp only [bind_assoc, pure_bind, run_bind, run_pure]
    rw [← bind_assoc, attempt_bind_ok]

theorem run_reference (path : String) :
    run reg call (Script.reference path) = match Table.get? reg.helpers path with
      | some h => call (.script (h [] none none))
      | none => text call (.path path) := by
  rw [Script.reference, run_bind, run_request, answer]
  cases Table.get? reg.helpers path with
  | none => rfl
  | some h => simp only [bind_assoc, pure_bind, attempt_bind_ok]

theorem run_bindArguments (args : List Argument) :
    run reg call (Script.bindArguments args) = bindArguments call args := by
  induction args with
  | nil => rfl
  | cons a args ih =>
    obtain ⟨key, param⟩ := a
    simp only [Script.bindArguments, bindArguments, run_bind, run_value, ih]
    rfl

theorem run_inArgumentScope (s : Script String) :
    run reg call (Script.inArgumentScope s) = inArgumentScope (run reg call s) := by
  funext ctx
  have hread : ∀ f : Scoping → Rendering String,
      (answer reg call .scoping >>= f) ctx = f ctx.scoping ctx := fun _ => rfl
  rw [Script.inArgumentScope, run_bind, run_request, hread]
  unfold inArgumentScope
  cases ctx.scoping with
  | isolated => exact congrFun (run_andFinally (run_request .closeScope)) ctx.openScope
  | shared => rfl

theorem run_items (b : Block) : run reg call (Script.items b) = items call b := by
  induction b with
  | nil => rfl
  | cons n b ih => simp only [Script.items, items, run_bind, run_pure, run_node, ih]

theorem run_code (n : Node) : run reg call n.code = node reg call n := by
  cases n with
  | content | literal => rfl
  | reference output path trim =>
    simp only [Node.code, node, run_bind, run_reference, run_emit]
    cases Table.get? reg.helpers path <;> rfl
  | helper output name params body otherwise trim marks =>
    simp only [Node.code, node, run_bind, run_callHelper, run_emit]
  | binder name params names body otherwise marks => exact run_callBinder name params names body _
  | plainPartial name args trim => exact run_callPartial name trim
  | boundPartial name args trim =>
    simp only [Node.code, node, run_inArgumentScope, run_bind, run_bindArguments, run_callPartial]
  | block b => exact run_block b

/-- To carry out a task is to run its script. -/
theorem step_eq_run (t : Task) : step reg call t = run reg call t.code := by
  cases t with
  | block b =>
    have henter : (run reg call (Script.request .enter) >>= fun result =>
        run reg call (Script.ok result)) = Rendering.enter := by
      rw [run_request]
      exact attempt_bind_ok Rendering.enter
    have hleave : run reg call ((Script.items b).andFinally (Script.request .leave)) =
        (items call b).andFinally Context.leave := by
      rw [run_andFinally (run_request .leave), run_items]
    simp only [Task.code, step, block, run_bind, hleave]
    rw [← bind_assoc, henter]
  | node n => exact (run_code n).symm
  | script code => rfl

end Evaluation

/-! ## What a rendering passes -/

/-- The contexts that a script comes to, those inside of what it asks for included. Its requests are
answered by renderings with the given budget. -/
inductive Passes (reg : Registry) : Nat → Script String → Context → Context → Prop
  | here {budget : Nat} {s : Script String} {ctx : Context} : Passes reg budget s ctx ctx
  | inside {budget : Nat} {r : Request} {next : r.Answer → Script String} {t : Task}
      {ctx ctx' : Context} : r.Asks reg t → Passes reg budget t.code ctx ctx' →
      Passes reg (budget + 1) (.ask r next) ctx ctx'
  | onward {budget : Nat} {r : Request} {next : r.Answer → Script String} {a : r.Answer}
      {ctx ctx₁ ctx' : Context} :
      Evaluation.answer reg (evaluate reg budget) r ctx = some (.ok a, ctx₁) →
      Passes reg budget (next a) ctx₁ ctx' → Passes reg budget (.ask r next) ctx ctx'

/-- The context that a script leaves is the last that it comes to. -/
theorem passes_of_run {reg : Registry} {budget : Nat} {s : Script String} {ctx ctx' : Context}
    {result : Except RenderError String}
    (h : Evaluation.run reg (evaluate reg budget) s ctx = some (result, ctx')) :
    Passes reg budget s ctx ctx' := by
  induction s generalizing ctx with
  | done | fail =>
    cases h
    exact .here
  | ask r next ih =>
    rcases Rendering.bind_eq_some h with ⟨e, hanswer, -⟩ | ⟨a, ctx₁, hanswer, h⟩
    · obtain ⟨a, ha⟩ := Evaluation.answer_ok hanswer
      cases ha
    · exact .onward hanswer (ih a h)

theorem passes_of_evaluate {reg : Registry} {budget : Nat} {t : Task} {ctx ctx' : Context}
    {result : Except RenderError String}
    (h : evaluate reg (budget + 1) t ctx = some (result, ctx')) :
    Passes reg budget t.code ctx ctx' := by
  rw [evaluate, Evaluation.step_eq_run] at h
  exact passes_of_run h

/-! ## Histories of renderings -/

/-- The rendering leaves a context that some history leaves. -/
def Rendering.Acts {α : Type} (p : Rendering α) : Prop :=
  ∀ ⦃ctx result ctx'⦄, p ctx = some (result, ctx') → ∃ h, ctx' = ctx.after h

namespace Evaluation

variable {reg : Registry} {call : Task → Rendering String} (hcall : ∀ t, (call t).Acts)
include hcall

theorem acts_answer (r : Request) : (answer reg call r).Acts := by
  intro ctx result ctx' h
  have hasked : ∀ {t}, r.Asks reg t → ∃ h, ctx' = ctx.after h := by
    intro t ht
    obtain ⟨wrap, -, -, hanswer⟩ := answer_of_asks ht
    rw [hanswer] at h
    obtain ⟨⟨result', ctx₁⟩, hresult, heq⟩ := Option.map_eq_some_iff.1 h
    cases heq
    exact hcall t hresult
  have hone : ∀ a, ctx' = ctx.act a → ∃ h, ctx' = ctx.after h := fun a ha => ⟨[a], ha⟩
  have hquiet : ctx' = ctx → ∃ h, ctx' = ctx.after h := fun hctx => ⟨[], hctx⟩
  cases r with
  | get | scoping | escape =>
    cases h
    exact hquiet rfl
  | bind key v =>
    cases h
    exact hone (.bind key v) rfl
  | openScope =>
    cases h
    exact hone .openScope rfl
  | closeScope =>
    cases h
    exact hone .closeScope rfl
  | leave =>
    cases h
    exact hone .leave rfl
  | enter =>
    refine hone .enter ?_
    change Rendering.enter.attempt ctx = _ at h
    unfold Rendering.attempt Rendering.enter at h
    unfold Context.act
    cases henter : ctx.enter <;>
    · rw [henter] at h
      cases h
      rfl
  | renderBlock b => exact hasked (.block b)
  | renderNode n => exact hasked (.node n)
  | callHelper name params body otherwise =>
    cases hget : Table.get? reg.helpers name with
    | none =>
      simp only [answer, hget] at h
      cases h
      exact hquiet rfl
    | some => exact hasked (.helper hget)
  | callBinder name params names body otherwise =>
    cases hget : Table.get? reg.binders name with
    | none =>
      simp only [answer, hget] at h
      cases h
      exact hquiet rfl
    | some => exact hasked (.binder hget)
  | callPartial name =>
    cases hget : Table.get? reg.partials name with
    | none =>
      simp only [answer, hget] at h
      cases h
      exact hquiet rfl
    | some => exact hasked (.registered hget)

theorem acts_run {α : Type} (s : Script α) : (run reg call s).Acts := by
  intro ctx result ctx' h
  induction s generalizing ctx with
  | done | fail =>
    cases h
    exact ⟨[], rfl⟩
  | ask r next ih =>
    rcases Rendering.bind_eq_some h with ⟨e, h, -⟩ | ⟨a, ctx₁, hanswer, h⟩
    · exact acts_answer hcall r h
    · obtain ⟨before, rfl⟩ := acts_answer hcall r hanswer
      obtain ⟨since, rfl⟩ := ih a h
      exact ⟨before ++ since, (Context.after_append _ _ _).symm⟩

end Evaluation

/-- Every rendering leaves a context that some history leaves. -/
theorem evaluate_acts (reg : Registry) (budget : Nat) (t : Task) :
    (evaluate reg budget t).Acts := by
  induction budget generalizing t with
  | zero => exact fun _ _ _ h => by cases h
  | succ budget ih =>
    rw [evaluate, Evaluation.step_eq_run]
    exact Evaluation.acts_run ih t.code

/-- And so is every context that a rendering comes to. -/
theorem Passes.after {reg : Registry} {budget : Nat} {s : Script String} {ctx ctx' : Context}
    (h : Passes reg budget s ctx ctx') : ∃ history, ctx' = ctx.after history := by
  induction h with
  | here => exact ⟨[], rfl⟩
  | inside _ _ ih => exact ih
  | onward hanswer _ ih =>
    obtain ⟨before, rfl⟩ := Evaluation.acts_answer (evaluate_acts reg _) _ hanswer
    obtain ⟨since, rfl⟩ := ih
    exact ⟨before ++ since, (Context.after_append _ _ _).symm⟩

end BraceTemplate
