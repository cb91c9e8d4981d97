import BraceTemplate.Proofs.Render.Keeps

/-!
# Running scripts

Running a script commutes with putting scripts together: sequences run one after the other, and
what a script catches is what its run ends in. A request itself never ends in an error, so a
script in a scope of its own always gets to drop that scope.
-/

namespace BraceTemplate.Evaluation

open Rendering

variable {reg : Registry} {call : Task → Rendering String} {α β : Type}

/-- Each request is answered, with an error at most as the answer. -/
theorem answer_ok {r : Request} {ctx ctx' : Context} {x : Except RenderError r.Answer}
    (h : answer reg call r ctx = some (x, ctx')) : ∃ a, x = .ok a := by
  have hattempt : ∀ {γ : Type} {p : Rendering γ} {ctx ctx' : Context}
      {y : Except RenderError (Except RenderError γ)},
      p.attempt ctx = some (y, ctx') → ∃ a, y = .ok a := by
    intro γ p ctx ctx' y h
    unfold Rendering.attempt at h
    split at h <;> cases h
    exact ⟨_, rfl⟩
  have hsome : ∀ {γ : Type} {p : Rendering γ} {ctx ctx' : Context}
      {y : Except RenderError (Option (Except RenderError γ))},
      (do return some (← p.attempt) : Rendering _) ctx = some (y, ctx') → ∃ a, y = .ok a := by
    intro γ p ctx ctx' y h
    rcases bind_eq_some h with ⟨e, h, -⟩ | ⟨a, ctx₁, -, h⟩
    · obtain ⟨a, ha⟩ := hattempt h
      cases ha
    · cases h
      exact ⟨_, rfl⟩
  cases r with
  | enter => exact hattempt h
  | renderBlock => exact hattempt h
  | renderNode => exact hattempt h
  | callHelper name params body otherwise =>
    cases hget : Table.get? reg.helpers name with
    | none =>
      simp only [answer, hget] at h
      cases h
      exact ⟨_, rfl⟩
    | some =>
      simp only [answer, hget] at h
      exact hsome h
  | callBinder name params names body otherwise =>
    cases hget : Table.get? reg.binders name with
    | none =>
      simp only [answer, hget] at h
      cases h
      exact ⟨_, rfl⟩
    | some =>
      simp only [answer, hget] at h
      exact hsome h
  | callPartial name =>
    cases hget : Table.get? reg.partials name with
    | none =>
      simp only [answer, hget] at h
      cases h
      exact ⟨_, rfl⟩
    | some =>
      simp only [answer, hget] at h
      exact hsome h
  | _ =>
    cases h
    exact ⟨_, rfl⟩

/-- A sequence of scripts runs as the sequence of their runs. -/
theorem run_andThen (s : Script α) (f : α → Script β) :
    run reg call (s.andThen f) = (run reg call s).andThen fun a => run reg call (f a) := by
  induction s with
  | done a => rfl
  | fail e => rfl
  | ask r next ih =>
    funext ctx
    simp only [Script.andThen, run, Rendering.andThen, ih]
    rcases answer reg call r ctx with _ | ⟨_ | a, ctx'⟩ <;> rfl

theorem run_bind (s : Script α) (f : α → Script β) :
    run reg call (s >>= f) = run reg call s >>= fun a => run reg call (f a) :=
  run_andThen s f

theorem run_request (r : Request) : run reg call (.request r) = answer reg call r :=
  bind_pure (answer reg call r)

/-- What a script catches is what its run ends in. -/
theorem run_attempt (s : Script α) :
    run reg call s.attempt = (run reg call s).attempt := by
  induction s with
  | done a => rfl
  | fail e => rfl
  | ask r next ih =>
    funext ctx
    simp only [Script.attempt, run, Rendering.andThen, Rendering.attempt, ih]
    cases h : answer reg call r ctx with
    | none => rfl
    | some x =>
      obtain ⟨x, ctx'⟩ := x
      obtain ⟨a, rfl⟩ := answer_ok h
      rfl

theorem run_ok (r : Except RenderError α) (ctx : Context) :
    run reg call (Script.ok r) ctx = some (r, ctx) := by
  cases r <;> rfl

/-- To catch an error and to pass it on is to leave it alone. -/
theorem attempt_bind_ok (p : Rendering α) :
    (p.attempt >>= fun result => run reg call (Script.ok result)) = p := by
  funext ctx
  change (p.attempt.andThen fun result => run reg call (Script.ok result)) ctx = p ctx
  unfold Rendering.andThen Rendering.attempt
  rcases p ctx with _ | ⟨result, ctx'⟩
  · rfl
  · exact run_ok result ctx'

/-- Asking for a block to be rendered and passing an error on is rendering the block. -/
theorem run_block (b : Block) : run reg call (Script.block b) = call (.block b) := by
  rw [Script.block, run_bind, run_request]
  exact attempt_bind_ok _

/-- So it is for a node. -/
theorem run_node (n : Node) : run reg call (Script.node n) = call (.node n) := by
  rw [Script.node, run_bind, run_request]
  exact attempt_bind_ok _

/-- A script that cleans up does so however it ends. -/
theorem run_andFinally {s : Script α} {cleanup : Script Unit} {g : Context → Context}
    (hclean : run reg call cleanup = .modify g) :
    run reg call (s.andFinally cleanup) = (run reg call s).andFinally g := by
  funext ctx
  change run reg call (s.attempt.andThen fun result =>
    cleanup.andThen fun _ => Script.ok result) ctx = _
  rw [run_andThen, run_attempt]
  simp only [run_andThen, hclean]
  unfold Rendering.andThen Rendering.attempt Rendering.andFinally
  rcases run reg call s ctx with _ | ⟨result, ctx'⟩
  · rfl
  · exact run_ok result _

theorem run_andFinally_eq_some {s : Script α} {cleanup : Script Unit} {g : Context → Context}
    (hclean : run reg call cleanup = .modify g) {ctx ctx' : Context} {r : Except RenderError α}
    (h : run reg call (s.andFinally cleanup) ctx = some (r, ctx')) :
    ∃ ctx₁, run reg call s ctx = some (r, ctx₁) ∧ ctx' = g ctx₁ := by
  rw [run_andFinally hclean] at h
  exact andFinally_eq_some h

/-- A script in a scope of its own leaves the context as it was, if it changes no other scope. -/
theorem run_inScope_eq_some {s : Script α} {ctx ctx' : Context} {r : Except RenderError α}
    (hs : ∀ {r ctx₁}, run reg call s ctx.openScope = some (r, ctx₁) → ctx.openScope.Framed ctx₁)
    (h : run reg call s.inScope ctx = some (r, ctx')) : ctx' = ctx := by
  change run reg call (Script.openScope.andThen fun _ => s.andFinally .closeScope) ctx = _ at h
  rw [run_andThen] at h
  obtain ⟨ctx₁, h₁, rfl⟩ := run_andFinally_eq_some (g := Context.closeScope) rfl
    (show run reg call (s.andFinally .closeScope) ctx.openScope = some (r, ctx') from h)
  exact (hs h₁).closeScope

end BraceTemplate.Evaluation
