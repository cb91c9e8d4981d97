import BraceTemplate.Proofs.Render.Simulation

/-!
# Two renderings in step

A steady simulation goes on through everything that host code may ask for, so two runs of the
evaluator that differ in their contexts or in their budgets stay in step as soon as host code passes
on the errors in which the first may stop early. `follows_evaluate` carries this to every task. One
use is here: a larger budget of open calls never changes a result (`evaluate_mono`).
-/

namespace BraceTemplate

open Rendering

/-- Related contexts cannot be told apart by what is read from them, and stay related when both are
changed alike, but that the first may refuse a level. The first run stops early in barred errors
only, and no lookup ends in one. -/
structure Simulation.Steady (σ : Simulation) : Prop where
  get : ∀ {ctx ctx'}, σ.Related ctx ctx' → ∀ path, ctx.get path = ctx'.get path
  scoping : ∀ {ctx ctx'}, σ.Related ctx ctx' → ctx.scoping = ctx'.scoping
  bind : ∀ {ctx ctx'}, σ.Related ctx ctx' → ∀ key v, σ.Related (ctx.bind key v) (ctx'.bind key v)
  openScope : ∀ {ctx ctx'}, σ.Related ctx ctx' → σ.Related ctx.openScope ctx'.openScope
  closeScope : ∀ {ctx ctx'}, σ.Related ctx ctx' → σ.Related ctx.closeScope ctx'.closeScope
  leave : ∀ {ctx ctx'}, σ.Related ctx ctx' → σ.Related ctx.leave ctx'.leave
  enter : Rendering.enter.Follows σ Rendering.enter
  bars_of_cuts : ∀ {e}, σ.cuts e → σ.bars e
  noHelper : ∀ name, ¬ σ.bars (.noHelper name)
  noPartial : ∀ name, ¬ σ.bars (.noPartial name)

theorem Simulation.Steady.consistent {σ : Simulation} (hσ : σ.Steady) : σ.Consistent where
  get := hσ.get
  bind := hσ.bind
  enter := hσ.enter
  leave := hσ.leave
  noHelper := hσ.noHelper
  noPartial := hσ.noPartial

def Task.Yields (B : RenderError → Prop) : Task → Prop
  | script code => code.Yields B
  | _ => True

namespace Evaluation

variable {σ : Simulation} {reg : Registry} {call call' : Task → Rendering String} {α : Type}

/-- A script that is to end in an error gets there. -/
theorem run_endsIn (reg : Registry) (call : Task → Rendering String) {e : RenderError}
    {code : Script α} (h : code.EndsIn e) (ctx : Context) :
    ∃ ctx', run reg call code ctx = some (.error e, ctx') := by
  induction code generalizing ctx with
  | done => exact h.elim
  | fail e' =>
    obtain rfl : e' = e := h
    exact ⟨ctx, rfl⟩
  | ask r next ih =>
    have hanswer : ∃ a ctx', answer reg call r ctx = some (.ok a, ctx') := by
      obtain ⟨hquiet, -⟩ := h
      cases r with
      | get | bind | openScope | closeScope | leave | scoping | escape => exact ⟨_, _, rfl⟩
      | _ => exact hquiet.elim
    obtain ⟨a, ctx', ha⟩ := hanswer
    obtain ⟨ctx'', hrun⟩ := ih a (h.2 a) ctx'
    refine ⟨ctx'', ?_⟩
    change (answer reg call r).andThen (fun a => run reg call (next a)) ctx = _
    unfold Rendering.andThen
    rw [ha]
    exact hrun

theorem follows_inArgumentScope (hσ : σ.Steady) {p q : Rendering α} (h : p.Follows σ q) :
    (inArgumentScope p).Follows σ (inArgumentScope q) := by
  intro ctx ctx' hr
  unfold inArgumentScope
  rw [← hσ.scoping hr]
  cases ctx.scoping with
  | isolated => exact h.andFinally (fun _ _ h => hσ.closeScope h) _ _ (hσ.openScope hr)
  | shared => exact h ctx ctx' hr

section
variable (hσ : σ.Steady) (hreg : reg.EachScript fun _ code => code.Yields σ.bars)
variable (hcall : ∀ t, t.Yields σ.bars → (call t).Follows σ (call' t))
include hσ hcall

theorem follows_value (p : Param) : (value call p).Follows σ (value call' p) :=
  hσ.consistent.follows_value fun n _ => hcall (.node n) trivial

theorem follows_text (p : Param) : (text call p).Follows σ (text call' p) :=
  hσ.consistent.follows_text fun n _ => hcall (.node n) trivial

include hreg

theorem follows_node (n : Node) : (node reg call n).Follows σ (node reg call' n) :=
  hσ.consistent.follows_node (.refl reg _) (fun t hc => hcall t (hc.ifScript hreg))
    fun _ _ _ h => follows_inArgumentScope hσ h

/-! ## Scripts -/

/-- In step, a request gets the same answer twice, or one after which the first run stops. -/
theorem answers (r : Request) {ctx ctx' : Context} (hr : σ.Related ctx ctx') :
    σ.Answers r (answer reg call r ctx) (answer reg call' r ctx') := by
  cases r with
  | get path =>
    change σ.Answers (.get path) (some (.ok (ctx.get path), ctx)) (some (.ok (ctx'.get path), ctx'))
    rw [hσ.get hr]
    exact .together hr fun _ he => by cases he
  | scoping =>
    change σ.Answers .scoping (some (.ok ctx.scoping, ctx)) (some (.ok ctx'.scoping, ctx'))
    rw [hσ.scoping hr]
    exact .together hr fun _ he => by cases he
  | bind key v => exact .together (hσ.bind hr key v) fun _ he => by cases he
  | openScope => exact .together (hσ.openScope hr) fun _ he => by cases he
  | closeScope => exact .together (hσ.closeScope hr) fun _ he => by cases he
  | leave => exact .together (hσ.leave hr) fun _ he => by cases he
  | escape => exact .together hr fun _ he => by cases he
  | _ => exact answers_of_calls hσ.enter (fun t ht => hcall t (ht.ifScript hreg)) id hr

/-- A script that passes on the barred errors runs in step. Where the first run is answered with
such an error, it ends in it. -/
theorem follows_run {code : Script α} (hcode : code.Yields σ.bars) :
    (run reg call code).Follows σ (run reg call' code) := by
  induction code with
  | done a => exact follows_pure a
  | fail e => exact follows_throw hcode
  | ask r next ih =>
    intro ctx ctx' hr
    have hanswers := answers hσ hreg hcall r hr
    change σ.Ends ((answer reg call r).andThen (fun a => run reg call (next a)) ctx)
      ((answer reg call' r).andThen (fun a => run reg call' (next a)) ctx')
    unfold Rendering.andThen
    generalize answer reg call r ctx = x, answer reg call' r ctx' = y at hanswers ⊢
    cases hanswers with
    | exhausted => exact .exhausted
    | @together a _ _ hr hbar => exact ih a ((hcode a).2 hbar) _ _ hr
    | spent hs => exact .spent hs
    | @cut a e ctx _ herror hc =>
      -- the first run has its error now, and the script can do no more than end in it
      have hends := (hcode a).1 e herror (hσ.bars_of_cuts hc)
      obtain ⟨ctx', hrun⟩ := run_endsIn reg call hends ctx
      simp only [hrun]
      exact .cut hc

end

/-- All tasks run in step, with one budget or with two of which the first may be used up. -/
theorem follows_evaluate (hσ : σ.Steady) (hreg : reg.EachScript fun _ code => code.Yields σ.bars)
    {m n : Nat} (hle : m ≤ n) (hspend : m = n ∨ σ.spends) (t : Task) (ht : t.Yields σ.bars) :
    (evaluate reg m t).Follows σ (evaluate reg n t) := by
  induction m generalizing n t with
  | zero =>
    intro ctx ctx' _
    rcases hspend with rfl | hspend
    · exact .exhausted
    · exact .spent hspend
  | succ m ih =>
    obtain ⟨n, rfl⟩ : ∃ k, n = k + 1 := ⟨n - 1, by omega⟩
    have hcall := ih (n := n) (by omega) (hspend.imp_left Nat.succ.inj)
    cases t with
    | block b => exact hσ.consistent.follows_block fun n _ => hcall (.node n) trivial
    | node n => exact follows_node hσ hreg hcall n
    | script code => exact follows_run hσ hreg hcall ht

end Evaluation

/-! ## Larger budgets -/

/-- The same context twice. The first run may use up its budget. -/
def Simulation.budgets : Simulation where
  Related := Eq
  spends := True
  cuts _ := False
  bars _ := False

theorem steady_budgets : Simulation.budgets.Steady where
  get := by rintro _ _ ⟨⟩ _; rfl
  scoping := by rintro _ _ ⟨⟩; rfl
  bind := by rintro _ _ ⟨⟩ _ _; rfl
  openScope := by rintro _ _ ⟨⟩; rfl
  closeScope := by rintro _ _ ⟨⟩; rfl
  leave := by rintro _ _ ⟨⟩; rfl
  enter := by
    rintro ctx _ rfl
    unfold Rendering.enter
    split <;> exact .together rfl fun _ _ h => h
  bars_of_cuts h := h
  noHelper _ h := h
  noPartial _ h := h

/-- What a task ends in with one budget of open calls, it ends in with every larger one. -/
theorem evaluate_mono {reg : Registry} {m n : Nat} (hle : m ≤ n) {t : Task} {ctx : Context}
    {x : Except RenderError String × Context} (h : evaluate reg m t ctx = some x) :
    evaluate reg n t ctx = some x := by
  have hyields : ∀ {α : Type} (code : Script α), code.Yields Simulation.budgets.bars :=
    fun code => code.yields_of_forall_not fun _ h => h
  have ht : t.Yields Simulation.budgets.bars := by
    cases t with
    | block | node => trivial
    | script code => exact hyields code
  have hreg : reg.EachScript fun _ code => code.Yields Simulation.budgets.bars :=
    ⟨fun _ _ _ _ => hyields _, fun _ _ _ _ _ => hyields _, fun _ => hyields _⟩
  have hends := Evaluation.follows_evaluate steady_budgets hreg hle (.inr trivial) t ht ctx ctx rfl
  rw [h] at hends
  generalize evaluate reg n t ctx = y at hends ⊢
  cases hends with
  | together hr _ =>
    obtain rfl : _ = _ := hr
    rfl
  | cut hc => exact hc.elim

end BraceTemplate
