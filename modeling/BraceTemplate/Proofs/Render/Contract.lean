import BraceTemplate.Proofs.Render.Conduct

/-!
# Contracts of renderings

A contract relates the context that a rendering starts from to the way it ends. A stable contract
allows a rendering to end at once, holds of a sequence if it holds of the parts, and is kept by
what the evaluator does to bind the arguments of a partial. A node meets a stable contract if the
tasks that it calls do (`meets_node`), so a proof about all renderings has to look at the scripts
of the host and at the levels of blocks only.
-/

namespace BraceTemplate

/-! ## Endings -/

inductive Ending where
  /-- Its budget of open calls is used up. -/
  | exhausted
  | success (ctx : Context)
  | failure (e : RenderError) (ctx : Context)

def Ending.map (f : Context → Context) : Ending → Ending
  | exhausted => exhausted
  | success ctx => success (f ctx)
  | failure e ctx => failure e (f ctx)

/-- A relation between the context at the start and the ending. -/
abbrev Contract := Context → Ending → Prop

/-- What makes a contract fit for sequences and for the arguments of partials. -/
structure Contract.Stable (Q : Contract) : Prop where
  refl : ∀ ctx, Q ctx (.success ctx)
  next : ∀ {ctx ctx' o}, Q ctx (.success ctx') → Q ctx' o → Q ctx o
  bind : ∀ ctx key v, Q ctx (.success (ctx.bind key v))
  scope : ∀ {ctx o}, Q ctx.openScope o → Q ctx (o.map Context.closeScope)

namespace Rendering

variable {α β : Type} {Q Q' : Contract} {p : Rendering α} {f : α → Rendering β}

def ending (p : Rendering α) (ctx : Context) : Ending :=
  match p ctx with
  | none => .exhausted
  | some (.ok _, ctx') => .success ctx'
  | some (.error e, ctx') => .failure e ctx'

def Meets (p : Rendering α) (Q : Contract) : Prop := ∀ ctx, Q ctx (p.ending ctx)

theorem ending_bind (p : Rendering α) (f : α → Rendering β) (ctx : Context) :
    (p >>= f).ending ctx = match p ctx with
      | none => .exhausted
      | some (.ok a, ctx') => (f a).ending ctx'
      | some (.error e, ctx') => .failure e ctx' := by
  change (p.andThen f).ending ctx = _
  unfold ending andThen
  rcases p ctx with _ | ⟨_ | a, ctx'⟩ <;> rfl

theorem ending_andFinally (p : Rendering α) (g : Context → Context) (ctx : Context) :
    (p.andFinally g).ending ctx = (p.ending ctx).map g := by
  unfold ending andFinally
  rcases p ctx with _ | ⟨_ | a, ctx'⟩ <;> rfl

theorem meets_read (hQ : Q.Stable) (g : Context → α) : (read g).Meets Q := fun ctx => hQ.refl ctx

theorem meets_pure (hQ : Q.Stable) (a : α) : (pure a : Rendering α).Meets Q :=
  fun ctx => hQ.refl ctx

theorem Meets.bind (hQ : Q.Stable) (hp : p.Meets Q) (hf : ∀ a, (f a).Meets Q) :
    (p >>= f).Meets Q := by
  intro ctx
  have hstart := hp ctx
  rw [ending_bind]
  unfold ending at hstart
  cases h : p ctx with
  | none =>
    rw [h] at hstart
    exact hstart
  | some x =>
    rw [h] at hstart
    obtain ⟨e | a, ctx'⟩ := x
    · exact hstart
    · exact hQ.next hstart (hf a ctx')

end Rendering

/-! ## The calls of a node -/

inductive Node.Calls (reg : Registry) : Node → Task → Prop
  | reference {output : Output} {path : String} {trim : Trim} {h : Helper} :
      Table.get? reg.helpers path = some h →
      Calls reg (.reference output path trim) (.script (h [] none none))
  | helper {output : Output} {name : String} {params : List Param}
      {body otherwise : Option Block} {trim : Trim} {marks : Option TrimMarks} {h : Helper} :
      Table.get? reg.helpers name = some h →
      Calls reg (.helper output name params body otherwise trim marks)
        (.script (h params body otherwise))
  | helperFallback {output : Output} {name : String} {params : List Param}
      {body otherwise : Option Block} {trim : Trim} {marks : Option TrimMarks} {h : Helper} :
      Table.get? reg.helpers Registry.fallback = some h →
      Calls reg (.helper output name params body otherwise trim marks)
        (.script (h [.literal name] none none))
  | binder {name : String} {params : List Param} {names : List String} {body : Block}
      {otherwise : Option Block} {marks : TrimMarks} {h : Binder} :
      Table.get? reg.binders name = some h →
      Calls reg (.binder name params names body otherwise marks)
        (.script (h params names body otherwise))
  | binderFallback {name : String} {params : List Param} {names : List String} {body : Block}
      {otherwise : Option Block} {marks : TrimMarks} {h : Helper} :
      Table.get? reg.helpers Registry.fallback = some h →
      Calls reg (.binder name params names body otherwise marks)
        (.script (h [.literal name] none none))
  | plainPartial {name : String} {args : List Argument} {trim : Trim} {p : Partial} :
      Table.get? reg.partials name = some p → Calls reg (.plainPartial name args trim) p.task
  | boundPartial {name : String} {args : List Argument} {trim : Trim} {p : Partial} :
      Table.get? reg.partials name = some p → Calls reg (.boundPartial name args trim) p.task
  | argument {name key : String} {args : List Argument} {trim : Trim} {n : Node} :
      .mk key (.node n) ∈ args → Calls reg (.boundPartial name args trim) (.node n)
  | block {b : Block} : Calls reg (.block b) (.block b)

/-- A node calls a script, which is handed the nodes right below it at most, or one of these nodes,
or a block that it is, or the template that it names. -/
theorem Node.Calls.cases {reg : Registry} {P : Givens → Script String → Prop}
    (hreg : reg.EachScript P) {n : Node} {t : Task} (h : n.Calls reg t) :
    (∃ code g, t = .script code ∧ P g code ∧ n ≠ .block n.children ∧
      ∀ t', g.Part t' → t'.Of fun m => m.IsText ∨ m ∈ n.children) ∨
    (∃ m ∈ n.children, t = .node m ∧ n ≠ .block n.children) ∨
    (n = .block n.children ∧ t = .block n.children) ∨
    ∃ name root, n.partialName? = some name ∧
      Table.get? reg.partials name = some (.template root) ∧ t = .block root := by
  have hscript : ∀ {code} {g : Givens}, P g code → n ≠ .block n.children →
      (∀ m, .node m ∈ g.params → m.IsText ∨ m ∈ n.children) →
      (∀ m ∈ g.body.getD [] ++ g.otherwise.getD [], m ∈ n.children) →
      ∃ code' g', Task.script code = .script code' ∧ P g' code' ∧ n ≠ .block n.children ∧
        ∀ t', g'.Part t' → t'.Of fun m => m.IsText ∨ m ∈ n.children := by
    intro code g hcode hblock hparams hbodies
    exact ⟨code, g, rfl, hcode, hblock, fun t' ht => ht.of hparams
      (fun m hm => .inr (hbodies m hm)) fun m => .inl⟩
  cases h with
  | reference hget =>
    exact .inl (hscript (hreg.helper hget _ _ _) (fun h => by cases h)
      (fun m hm => by cases hm) fun m hm => by cases hm)
  | helper hget =>
    exact .inl (hscript (hreg.helper hget _ _ _) (fun h => by cases h)
      (fun m hm => .inr (List.mem_append_left _ (mem_filterMap_node?.2 hm)))
      fun m hm => List.mem_append_right _ hm)
  | binder hget =>
    exact .inl (hscript (hreg.binder hget _ _ _ _) (fun h => by cases h)
      (fun m hm => .inr (List.mem_append_left _ (mem_filterMap_node?.2 hm)))
      fun m hm => List.mem_append_right _ hm)
  | helperFallback hget | binderFallback hget =>
    refine .inl (hscript (hreg.helper hget _ _ _) (fun h => by cases h) (fun m hm => ?_)
      fun m hm => by cases hm)
    simp only [Param.literal, List.mem_singleton, Param.node.injEq] at hm
    exact .inl (hm ▸ trivial)
  | @plainPartial _ _ _ p hget | @boundPartial _ _ _ p hget =>
    cases p with
    | template root => exact .inr (.inr (.inr ⟨_, root, rfl, hget, rfl⟩))
    | script code =>
      exact .inl (hscript (hreg.registered hget) (fun h => by cases h) (fun m hm => by cases hm)
        fun m hm => by cases hm)
  | argument hmem =>
    refine .inr (.inl ⟨_, ?_, rfl, fun h => by cases h⟩)
    exact List.mem_filterMap.2 ⟨_, hmem, rfl⟩
  | block => exact .inr (.inr (.inl ⟨rfl, rfl⟩))

/-- What a node calls is text, or made of the nodes that it leads to, or a script that is handed no
others. -/
theorem Node.Calls.within {reg : Registry} {P : Givens → Script String → Prop}
    (hreg : reg.EachScript P) {n : Node} {t : Task} {p : Node → Prop}
    (hp : ∀ m, n.LeadsTo reg m → p m) (hc : n.Calls reg t) :
    t.Within P (Task.Of fun m => m.IsText ∨ p m) := by
  rcases hc.cases hreg with ⟨code, g, rfl, hcode, -, hg⟩ | ⟨m, hm, rfl, -⟩ | ⟨-, rfl⟩ |
    ⟨name, root, hname, hget, rfl⟩
  · exact .script hcode fun t ht => (hg t ht).imp fun m => Or.imp_right fun hm => hp m (.child hm)
  · exact .part (.inr (hp m (.child hm)))
  · exact .part fun m hm => .inr (hp m (.child hm))
  · exact .part fun m hm => .inr (hp m (.template hname hget hm))

section
variable {reg : Registry} {P : Script String → Prop} (hreg : reg.EachScript fun _ code => P code)
include hreg

theorem Node.Calls.ifScript {n : Node} {t : Task} (h : n.Calls reg t) : t.IfScript P := by
  rcases h.cases hreg with ⟨code, _, rfl, hcode, -, -⟩ | ⟨_, _, rfl, -⟩ | ⟨-, rfl⟩ |
    ⟨_, _, -, -, rfl⟩
  · exact hcode
  all_goals trivial

theorem Request.Asks.ifScript {r : Request} {t : Task} (h : r.Asks reg t) : t.IfScript P := by
  cases t with
  | script code => exact (hreg.of_asks h).elim fun _ h => h
  | block | node => trivial

end

/-- The errors of a node whose name is not registered. -/
inductive Node.Misses (reg : Registry) : Node → RenderError → Prop
  | helper {output : Output} {name : String} {params : List Param}
      {body otherwise : Option Block} {trim : Trim} {marks : Option TrimMarks} :
      Table.get? reg.helpers name = none → Table.get? reg.helpers Registry.fallback = none →
      Misses reg (.helper output name params body otherwise trim marks) (.noHelper name)
  | binder {name : String} {params : List Param} {names : List String} {body : Block}
      {otherwise : Option Block} {marks : TrimMarks} :
      Table.get? reg.binders name = none → Table.get? reg.helpers Registry.fallback = none →
      Misses reg (.binder name params names body otherwise marks) (.noHelper name)
  | plainPartial {name : String} {args : List Argument} {trim : Trim} :
      Table.get? reg.partials name = none →
      Misses reg (.plainPartial name args trim) (.noPartial name)
  | boundPartial {name : String} {args : List Argument} {trim : Trim} :
      Table.get? reg.partials name = none →
      Misses reg (.boundPartial name args trim) (.noPartial name)

namespace Evaluation

open Rendering

variable {reg : Registry} {call : Task → Rendering String} {Q Q' : Contract}

section
variable (hQ : Q.Stable)
include hQ

theorem meets_value {p : Param} (hp : ∀ n, p = .node n → (call (.node n)).Meets Q) :
    (value call p).Meets Q := by
  cases p with
  | path => exact meets_read hQ _
  | node n => exact (hp n rfl).bind hQ fun _ => meets_pure hQ _

theorem meets_bindArguments {args : List Argument}
    (hargs : ∀ key n, .mk key (.node n) ∈ args → (call (.node n)).Meets Q) :
    (bindArguments call args).Meets Q := by
  induction args with
  | nil => exact meets_pure hQ _
  | cons a args ih =>
    obtain ⟨key, p⟩ := a
    refine (meets_value hQ fun n hn => hargs key n (by simp [hn])).bind hQ fun v =>
      Meets.bind hQ (fun ctx => hQ.bind ctx key v) fun _ => ih fun k n h => hargs k n (by simp [h])

omit hQ in
theorem meets_missingHelper {name : String}
    (hcall : ∀ h, Table.get? reg.helpers Registry.fallback = some h →
      (call (.script (h [.literal name] none none))).Meets Q)
    (hmiss : Table.get? reg.helpers Registry.fallback = none →
      ∀ ctx, Q ctx (.failure (.noHelper name) ctx)) :
    (missingHelper reg call name).Meets Q := by
  unfold missingHelper
  split
  · rename_i h hget
    exact hcall h hget
  · rename_i hget
    exact hmiss hget

theorem meets_callPartial {name : String} {trim : Trim}
    (hcall : ∀ p, Table.get? reg.partials name = some p → (call p.task).Meets Q)
    (hmiss : Table.get? reg.partials name = none →
      ∀ ctx, Q ctx (.failure (.noPartial name) ctx)) :
    (callPartial reg call name trim).Meets Q := by
  unfold callPartial
  split
  · rename_i p hget
    exact (hcall p hget).bind hQ fun _ => meets_pure hQ _
  · rename_i hget
    exact hmiss hget

theorem meets_inArgumentScope {p : Rendering String} (hp : p.Meets Q) :
    (inArgumentScope p).Meets Q := by
  intro ctx
  cases hs : ctx.scoping with
  | isolated =>
    have hend : (inArgumentScope p).ending ctx = (p.ending ctx.openScope).map .closeScope := by
      rw [← ending_andFinally]
      unfold ending inArgumentScope
      rw [hs]
    rw [hend]
    exact hQ.scope (hp _)
  | shared =>
    have hend : (inArgumentScope p).ending ctx = p.ending ctx := by
      unfold ending inArgumentScope
      rw [hs]
    rw [hend]
    exact hp ctx

/-- A node ends as a contract says if the tasks that it calls do and its own errors may. -/
theorem meets_node {n : Node} (hcall : ∀ t, n.Calls reg t → (call t).Meets Q)
    (hmiss : ∀ e, n.Misses reg e → ∀ ctx, Q ctx (.failure e ctx)) :
    (node reg call n).Meets Q := by
  cases n with
  | content | literal => exact meets_pure hQ _
  | reference output path trim =>
    rw [node]
    split
    · rename_i h hget
      exact (hcall _ (.reference hget)).bind hQ fun _ => meets_pure hQ _
    · exact Meets.bind hQ (Meets.bind hQ (meets_read hQ _) fun _ => meets_pure hQ _) fun _ =>
        meets_pure hQ _
  | helper output name params body otherwise trim marks =>
    refine Meets.bind hQ ?_ fun _ => meets_pure hQ _
    unfold callHelper
    split
    · rename_i h hget
      exact hcall _ (.helper hget)
    · rename_i hget
      exact meets_missingHelper (fun h hf => hcall _ (.helperFallback hf)) fun hf =>
        hmiss _ (.helper hget hf)
  | binder name params names body otherwise marks =>
    change (callBinder reg call name params names body otherwise).Meets Q
    unfold callBinder
    split
    · rename_i h hget
      exact hcall _ (.binder hget)
    · rename_i hget
      exact meets_missingHelper (fun h hf => hcall _ (.binderFallback hf)) fun hf =>
        hmiss _ (.binder hget hf)
  | plainPartial name args trim =>
    exact meets_callPartial hQ (fun p hp => hcall _ (.plainPartial hp)) fun hp =>
      hmiss _ (.plainPartial hp)
  | boundPartial name args trim =>
    refine meets_inArgumentScope hQ (Meets.bind hQ ?_ fun _ => ?_)
    · exact meets_bindArguments hQ fun key n hn => hcall _ (.argument hn)
    · exact meets_callPartial hQ (fun p hp => hcall _ (.boundPartial hp)) fun hp =>
        hmiss _ (.boundPartial hp)
  | block b => exact hcall _ .block

theorem meets_items {b : Block} (hcall : ∀ n ∈ b, (call (.node n)).Meets Q) :
    (items call b).Meets Q := by
  induction b with
  | nil => exact meets_pure hQ _
  | cons n b ih =>
    exact (hcall n (by simp)).bind hQ fun _ =>
      (ih fun m hm => hcall m (by simp [hm])).bind hQ fun _ => meets_pure hQ _

end

/-- A block ends as a contract says if its nodes do so one level further inside. -/
theorem meets_block {b : Block} (hitems : (items call b).Meets Q')
    (hdeep : ∀ ctx, ctx.maxDepth ≤ ctx.depth → Q ctx (.failure (.tooDeep ctx.maxDepth) ctx))
    (hlevel : ∀ ctx o, ctx.depth < ctx.maxDepth → Q' { ctx with depth := ctx.depth + 1 } o →
      Q ctx (o.map Context.leave)) :
    (block call b).Meets Q := by
  intro ctx
  rw [block, ending_bind]
  unfold Rendering.enter Context.enter
  by_cases h : ctx.maxDepth ≤ ctx.depth
  · rw [if_pos h]
    exact hdeep ctx h
  · rw [if_neg h]
    change Q ctx (((items call b).andFinally Context.leave).ending _)
    rw [ending_andFinally]
    exact hlevel ctx _ (by omega) (hitems _)

/-- Every task of a class ends as a contract says, with any budget, if the class is closed under
calls, the scripts in it end so where what they ask for does, and no level of depth matters. -/
theorem meets_evaluate {T : Task → Prop} (hQ : Q.Stable) (hexhausted : ∀ ctx, Q ctx .exhausted)
    (hdeep : ∀ ctx, ctx.maxDepth ≤ ctx.depth → Q ctx (.failure (.tooDeep ctx.maxDepth) ctx))
    (hlevel : ∀ ctx o, ctx.depth < ctx.maxDepth → Q { ctx with depth := ctx.depth + 1 } o →
      Q ctx (o.map Context.leave))
    (hitems : ∀ b, T (.block b) → ∀ n ∈ b, T (.node n))
    (hcalls : ∀ n, T (.node n) → ∀ t, n.Calls reg t → T t)
    (hmiss : ∀ n, T (.node n) → ∀ e, n.Misses reg e → ∀ ctx, Q ctx (.failure e ctx))
    (hrun : ∀ call code, T (.script code) → (∀ t, T t → (call t).Meets Q) →
      (run reg call code).Meets Q) (budget : Nat) :
    ∀ t, T t → (evaluate reg budget t).Meets Q := by
  induction budget with
  | zero => exact fun _ _ ctx => hexhausted ctx
  | succ budget ih =>
    intro t ht
    cases t with
    | block b =>
      exact meets_block (meets_items hQ fun n hn => ih _ (hitems b ht n hn)) hdeep hlevel
    | node n => exact meets_node hQ (fun t hc => ih t (hcalls n ht t hc)) (hmiss n ht)
    | script code => exact hrun _ code ht ih

/-! ## The answers to requests -/

inductive Answered (reg : Registry) (call : Task → Rendering String) (ctx : Context) :
    (r : Request) → Option (Except RenderError r.Answer × Context) → Prop
  | exhausted {r : Request} {t : Task} : r.Asks reg t → call t ctx = none →
      Answered reg call ctx r none
  | asked {r : Request} {t : Task} {result : Except RenderError String} {a : r.Answer}
      {ctx' : Context} : r.Asks reg t → call t ctx = some (result, ctx') →
      r.error? a = failure? result → (∀ k, r.levels k a = k) →
      Answered reg call ctx r (some (.ok a, ctx'))
  | quiet {r : Request} {a : r.Answer} {ctx' : Context} : r.error? a = none →
      (∀ k, r.levels k a = k) → ctx'.maxDepth = ctx.maxDepth → ctx'.depth = ctx.depth →
      Answered reg call ctx r (some (.ok a, ctx'))
  | left : Answered reg call ctx .leave (some (.ok (), ctx.leave))
  | entered : ctx.depth < ctx.maxDepth →
      Answered reg call ctx .enter (some (.ok (.ok ()), { ctx with depth := ctx.depth + 1 }))
  | refused : ctx.maxDepth ≤ ctx.depth →
      Answered reg call ctx .enter (some (.ok (.error (.tooDeep ctx.maxDepth)), ctx))

/-- A request for a task is answered with the result of the task, in some wrapping. -/
theorem answer_of_asks {r : Request} {t : Task} (h : r.Asks reg t) :
    ∃ wrap : Except RenderError String → r.Answer,
      (∀ result, r.error? (wrap result) = failure? result) ∧
      (∀ result k, r.levels k (wrap result) = k) ∧
      ∀ call ctx, answer reg call r ctx = (call t ctx).map fun x => (.ok (wrap x.1), x.2) := by
  have hattempt : ∀ (p : Rendering String) ctx,
      p.attempt ctx = (p ctx).map fun x => (.ok x.1, x.2) := by
    intro p ctx
    unfold Rendering.attempt
    rcases p ctx with _ | ⟨x, ctx'⟩ <;> rfl
  have hsome : ∀ (p : Rendering String) ctx, (do return some (← p.attempt) : Rendering _) ctx =
      (p ctx).map fun x => (.ok (some x.1), x.2) := by
    intro p ctx
    change (p.attempt.andThen fun x => succeed (some x)) ctx = _
    unfold Rendering.andThen
    rw [hattempt]
    rcases p ctx with _ | ⟨x, ctx'⟩ <;> rfl
  cases h with
  | block | node => exact ⟨id, fun _ => rfl, fun _ _ => rfl, fun _ => hattempt _⟩
  | helper hget | binder hget | registered hget =>
    refine ⟨some, fun _ => rfl, fun _ _ => rfl, fun call => ?_⟩
    simp only [answer, hget]
    exact hsome _

theorem answered_of_asks {r : Request} {t : Task} {ctx : Context} (h : r.Asks reg t) :
    Answered reg call ctx r (answer reg call r ctx) := by
  obtain ⟨wrap, herror, hlevels, hanswer⟩ := answer_of_asks h
  rw [hanswer]
  cases hc : call t ctx with
  | none => exact .exhausted h hc
  | some x => exact .asked h hc (herror x.1) (hlevels x.1)

/-- Every request is answered in one of these ways. -/
theorem answered (reg : Registry) (call : Task → Rendering String) (ctx : Context) (r : Request) :
    Answered reg call ctx r (answer reg call r ctx) := by
  cases r with
  | enter =>
    change Answered reg call ctx .enter (Rendering.enter.attempt ctx)
    unfold Rendering.attempt Rendering.enter Context.enter
    by_cases h : ctx.maxDepth ≤ ctx.depth
    · rw [if_pos h]
      exact .refused h
    · rw [if_neg h]
      exact .entered (by omega)
  | leave => exact .left
  | get | bind | openScope | scoping | escape => exact .quiet rfl (fun _ => rfl) rfl rfl
  | closeScope =>
    change Answered reg call ctx .closeScope (some (.ok (), ctx.closeScope))
    unfold Context.closeScope
    split <;> exact .quiet rfl (fun _ => rfl) rfl rfl
  | renderBlock b => exact answered_of_asks (.block b)
  | renderNode n => exact answered_of_asks (.node n)
  | callHelper name params body otherwise =>
    cases hget : Table.get? reg.helpers name with
    | none =>
      simp only [answer, hget]
      exact .quiet rfl (fun _ => rfl) rfl rfl
    | some h => exact answered_of_asks (.helper hget)
  | callBinder name params names body otherwise =>
    cases hget : Table.get? reg.binders name with
    | none =>
      simp only [answer, hget]
      exact .quiet rfl (fun _ => rfl) rfl rfl
    | some h => exact answered_of_asks (.binder hget)
  | callPartial name =>
    cases hget : Table.get? reg.partials name with
    | none =>
      simp only [answer, hget]
      exact .quiet rfl (fun _ => rfl) rfl rfl
    | some p => exact answered_of_asks (.registered hget)

end Evaluation
end BraceTemplate
