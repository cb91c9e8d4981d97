import BraceTemplate.Proofs.Render.Contract

/-!
# Simulations

A simulation compares two runs of the evaluator, which may differ in their contexts, their budgets
and their registries. As long as the first goes on, both do the same and stay in related contexts;
the first may stop early, where its budget is used up or in one of certain errors, and then nothing
is said of the second. One step of the evaluator runs in step if the tasks that it calls do
(`Simulation.Consistent.follows_node`).

Where neither run stops before the other, the two renderings agree (`Rendering.Agree`), and where
the contexts are the same they are equal (`agree_eq`).
-/

namespace BraceTemplate

/-- In which contexts two runs are in step, and how the first may stop early. -/
structure Simulation where
  /-- The contexts of the two runs. -/
  Related : Context → Context → Prop
  /-- The first run may use up its budget early. -/
  spends : Prop
  /-- The errors that the first run may end in early. -/
  cuts : RenderError → Prop
  /-- The errors that the two never end in together. -/
  bars : RenderError → Prop

namespace Simulation

variable (σ : Simulation)

inductive Ends {α : Type} : Option (Except RenderError α × Context) →
    Option (Except RenderError α × Context) → Prop
  | exhausted : Ends none none
  | together {r : Except RenderError α} {ctx ctx' : Context} : σ.Related ctx ctx' →
      (∀ e, failure? r = some e → ¬ σ.bars e) → Ends (some (r, ctx)) (some (r, ctx'))
  | spent {y : Option (Except RenderError α × Context)} : σ.spends → Ends none y
  | cut {e : RenderError} {ctx : Context} {y : Option (Except RenderError α × Context)} :
      σ.cuts e → Ends (some (.error e, ctx)) y

inductive Answers (r : Request) : Option (Except RenderError r.Answer × Context) →
    Option (Except RenderError r.Answer × Context) → Prop
  | exhausted : Answers r none none
  | together {a : r.Answer} {ctx ctx' : Context} : σ.Related ctx ctx' →
      (∀ e, r.error? a = some e → ¬ σ.bars e) → Answers r (some (.ok a, ctx)) (some (.ok a, ctx'))
  | spent {y : Option (Except RenderError r.Answer × Context)} : σ.spends → Answers r none y
  | cut {a : r.Answer} {e : RenderError} {ctx : Context}
      {y : Option (Except RenderError r.Answer × Context)} : r.error? a = some e → σ.cuts e →
      Answers r (some (.ok a, ctx)) y

end Simulation

namespace Rendering

variable {σ : Simulation} {α β : Type} {p q : Rendering α} {f g : α → Rendering β}

/-- From related contexts the two renderings run in step. -/
def Follows (σ : Simulation) (p q : Rendering α) : Prop :=
  ∀ ctx ctx', σ.Related ctx ctx' → σ.Ends (p ctx) (q ctx')

theorem follows_pure (a : α) : (pure a : Rendering α).Follows σ (pure a) :=
  fun _ _ h => .together h fun _ he => by cases he

theorem follows_throw {e : RenderError} (he : ¬ σ.bars e) :
    (throw e : Rendering α).Follows σ (throw e) :=
  fun _ _ h => .together h fun _ h => by cases h; exact he

theorem follows_read {get : Context → α} (h : ∀ ctx ctx', σ.Related ctx ctx' →
    get ctx = get ctx') : (read get).Follows σ (read get) := by
  intro ctx ctx' hr
  rw [read, read, h ctx ctx' hr]
  exact .together hr fun _ he => by cases he

theorem follows_modify {change : Context → Context} (h : ∀ ctx ctx', σ.Related ctx ctx' →
    σ.Related (change ctx) (change ctx')) : (modify change).Follows σ (modify change) :=
  fun ctx ctx' hr => .together (h ctx ctx' hr) fun _ he => by cases he

theorem Follows.bind (hp : p.Follows σ q) (hf : ∀ a, (f a).Follows σ (g a)) :
    (p >>= f).Follows σ (q >>= g) := by
  intro ctx ctx' h
  change σ.Ends (p.andThen f ctx) (q.andThen g ctx')
  unfold andThen
  have hstart := hp ctx ctx' h
  generalize p ctx = x, q ctx' = y at hstart ⊢
  cases hstart with
  | exhausted => exact .exhausted
  | @together r _ _ h hbar =>
    cases r with
    | error e => exact .together h fun e' he => hbar e' he
    | ok a => exact hf a _ _ h
  | spent hs => exact .spent hs
  | cut hc => exact .cut hc

theorem Follows.andFinally {change : Context → Context} (hp : p.Follows σ q)
    (h : ∀ ctx ctx', σ.Related ctx ctx' → σ.Related (change ctx) (change ctx')) :
    (p.andFinally change).Follows σ (q.andFinally change) := by
  intro ctx ctx' hr
  unfold Rendering.andFinally
  have hstart := hp ctx ctx' hr
  generalize p ctx = x, q ctx' = y at hstart ⊢
  cases hstart with
  | exhausted => exact .exhausted
  | together hr hbar => exact .together (h _ _ hr) hbar
  | spent hs => exact .spent hs
  | cut hc => exact .cut hc

end Rendering

open Rendering

/-- Related contexts give variables the same values and stay related when both are changed alike,
but that the first run may refuse a level. No look-up ends in a barred error. -/
structure Simulation.Consistent (σ : Simulation) : Prop where
  get : ∀ {ctx ctx'}, σ.Related ctx ctx' → ∀ path, ctx.get path = ctx'.get path
  bind : ∀ {ctx ctx'}, σ.Related ctx ctx' → ∀ key v, σ.Related (ctx.bind key v) (ctx'.bind key v)
  enter : Rendering.enter.Follows σ Rendering.enter
  leave : ∀ {ctx ctx'}, σ.Related ctx ctx' → σ.Related ctx.leave ctx'.leave
  noHelper : ∀ name, ¬ σ.bars (.noHelper name)
  noPartial : ∀ name, ¬ σ.bars (.noPartial name)

/-! ## Registries -/

/-- The name that the node looks up stands for the same in both registries. -/
def Node.FindsSame (reg reg' : Registry) : Node → Prop
  | .reference _ name _ | .helper _ name _ _ _ _ _ =>
    Table.get? reg'.helpers name = Table.get? reg.helpers name
  | .binder name _ _ _ _ _ => Table.get? reg'.binders name = Table.get? reg.binders name
  | .plainPartial name _ _ | .boundPartial name _ _ =>
    Table.get? reg'.partials name = Table.get? reg.partials name
  | _ => True

/-- The registries escape alike, have the same helper stand in for missing ones, and find the same
under the names of the nodes in `p`. -/
structure Registry.Agrees (reg reg' : Registry) (p : Node → Prop) : Prop where
  escape : reg'.escape = reg.escape
  fallback : Table.get? reg'.helpers Registry.fallback = Table.get? reg.helpers Registry.fallback
  finds : ∀ n, p n → n.FindsSame reg reg'

theorem Registry.Agrees.refl (reg : Registry) (p : Node → Prop) : reg.Agrees reg p where
  escape := rfl
  fallback := rfl
  finds n _ := by cases n <;> trivial

theorem Registry.emit_congr {reg reg' : Registry} (hescape : reg'.escape = reg.escape)
    (output : Output) : reg'.emit output = reg.emit output := by
  funext text
  cases output with
  | escaped => exact congrFun hescape text
  | raw => rfl

/-! ## Nodes -/

namespace Simulation.Consistent

open Evaluation

variable {σ : Simulation} {reg reg' : Registry} {call call' : Task → Rendering String}

section
variable (hσ : σ.Consistent)
include hσ

theorem follows_value {p : Param}
    (hp : ∀ n, p = .node n → (call (.node n)).Follows σ (call' (.node n))) :
    (value call p).Follows σ (value call' p) := by
  cases p with
  | path path => exact follows_read fun _ _ h => hσ.get h path
  | node n => exact (hp n rfl).bind fun _ => follows_pure _

theorem follows_text {p : Param}
    (hp : ∀ n, p = .node n → (call (.node n)).Follows σ (call' (.node n))) :
    (text call p).Follows σ (text call' p) := by
  cases p with
  | path path => exact (follows_read fun _ _ h => hσ.get h path).bind fun _ => follows_pure _
  | node n => exact hp n rfl

theorem follows_bindArguments {args : List Argument}
    (hargs : ∀ key n, .mk key (.node n) ∈ args → (call (.node n)).Follows σ (call' (.node n))) :
    (bindArguments call args).Follows σ (bindArguments call' args) := by
  induction args with
  | nil => exact follows_pure ()
  | cons a args ih =>
    obtain ⟨key, p⟩ := a
    refine (hσ.follows_value fun n hn => hargs key n (by simp [hn])).bind fun v => ?_
    refine (follows_modify fun _ _ h => hσ.bind h key v).bind fun _ => ih fun k n h => ?_
    exact hargs k n (by simp [h])

theorem follows_block {b : Block}
    (hb : ∀ n ∈ b, (call (.node n)).Follows σ (call' (.node n))) :
    (block call b).Follows σ (block call' b) := by
  have hitems : (items call b).Follows σ (items call' b) := by
    induction b with
    | nil => exact follows_pure ""
    | cons n b ih =>
      exact (hb n (by simp)).bind fun _ =>
        (ih fun m hm => hb m (by simp [hm])).bind fun _ => follows_pure _
  exact hσ.enter.bind fun _ => hitems.andFinally fun _ _ h => hσ.leave h

theorem follows_missingHelper {name : String}
    (hfallback : Table.get? reg'.helpers Registry.fallback =
      Table.get? reg.helpers Registry.fallback)
    (hcall : ∀ h, Table.get? reg.helpers Registry.fallback = some h →
      (call (.script (h [.literal name] none none))).Follows σ
        (call' (.script (h [.literal name] none none)))) :
    (missingHelper reg call name).Follows σ (missingHelper reg' call' name) := by
  unfold missingHelper
  rw [hfallback]
  split
  · rename_i h hget
    exact hcall h hget
  · exact follows_throw (hσ.noHelper name)

theorem follows_callPartial {name : String} {trim : Trim}
    (hfinds : Table.get? reg'.partials name = Table.get? reg.partials name)
    (hcall : ∀ p, Table.get? reg.partials name = some p →
      (call p.task).Follows σ (call' p.task)) :
    (callPartial reg call name trim).Follows σ (callPartial reg' call' name trim) := by
  unfold callPartial
  rw [hfinds]
  split
  · rename_i p hget
    exact (hcall p hget).bind fun _ => follows_pure _
  · exact follows_throw (hσ.noPartial name)

/-- What a partial with arguments does in the scope that these are bound in. -/
theorem follows_boundPartial {name : String} {args : List Argument} {trim : Trim}
    (hfinds : Table.get? reg'.partials name = Table.get? reg.partials name)
    (hcall : ∀ t, (Node.boundPartial name args trim).Calls reg t →
      (call t).Follows σ (call' t)) :
    (bindArguments call args >>= fun _ => callPartial reg call name trim).Follows σ
      (bindArguments call' args >>= fun _ => callPartial reg' call' name trim) :=
  (hσ.follows_bindArguments fun _ _ h => hcall _ (.argument h)).bind fun _ =>
    hσ.follows_callPartial hfinds fun _ hget => hcall _ (.boundPartial hget)

/-- A node runs in step if the tasks that it calls do, and if it is a partial with arguments, what
runs in the scope of these. -/
theorem follows_node {n : Node} (hreg : reg.Agrees reg' (n = ·))
    (hcall : ∀ t, n.Calls reg t → (call t).Follows σ (call' t))
    (hscope : (∃ name args trim, n = .boundPartial name args trim) →
      ∀ {p q : Rendering String}, p.Follows σ q →
        (inArgumentScope p).Follows σ (inArgumentScope q)) :
    (node reg call n).Follows σ (node reg' call' n) := by
  have hfinds := hreg.finds n rfl
  cases n with
  | content | literal => exact follows_pure _
  | reference output path trim =>
    have hpath : Table.get? reg'.helpers path = Table.get? reg.helpers path := hfinds
    rw [node, node, Registry.emit_congr hreg.escape, hpath]
    cases hget : Table.get? reg.helpers path with
    | some h => exact (hcall _ (.reference hget)).bind fun _ => follows_pure _
    | none => exact (hσ.follows_text fun _ h => by cases h).bind fun _ => follows_pure _
  | helper output name params body otherwise trim marks =>
    have hname : Table.get? reg'.helpers name = Table.get? reg.helpers name := hfinds
    rw [node, node, Registry.emit_congr hreg.escape]
    refine Follows.bind ?_ fun _ => follows_pure _
    unfold callHelper
    rw [hname]
    split
    · rename_i h hget
      exact hcall _ (.helper hget)
    · exact hσ.follows_missingHelper hreg.fallback fun h hget => hcall _ (.helperFallback hget)
  | binder name params names body otherwise marks =>
    have hname : Table.get? reg'.binders name = Table.get? reg.binders name := hfinds
    rw [node, node]
    unfold callBinder
    rw [hname]
    split
    · rename_i h hget
      exact hcall _ (.binder hget)
    · exact hσ.follows_missingHelper hreg.fallback fun h hget => hcall _ (.binderFallback hget)
  | plainPartial name args trim =>
    exact hσ.follows_callPartial hfinds fun _ hget => hcall _ (.plainPartial hget)
  | boundPartial name args trim =>
    exact hscope ⟨name, args, trim, rfl⟩ (hσ.follows_boundPartial hfinds hcall)
  | block b => exact hcall _ .block

end

end Simulation.Consistent

/-! ## Requests -/

namespace Evaluation

variable {σ : Simulation} {reg : Registry} {call call' : Task → Rendering String}

theorem answers_of_asks {r : Request} {t : Task} (h : r.Asks reg t)
    (hcall : (call t).Follows σ (call' t)) {ctx ctx' : Context} (hr : σ.Related ctx ctx') :
    σ.Answers r (answer reg call r ctx) (answer reg call' r ctx') := by
  obtain ⟨wrap, herror, -, hanswer⟩ := answer_of_asks h
  rw [hanswer, hanswer]
  have hends := hcall ctx ctx' hr
  generalize call t ctx = x, call' t ctx' = y at hends ⊢
  cases hends with
  | exhausted => exact .exhausted
  | @together result _ _ hr hbar => exact .together hr fun e he => hbar e (herror result ▸ he)
  | spent hs => exact .spent hs
  | cut hc => exact .cut (herror _) hc

/-- A request that enters a level or has a task carried out is answered in step if that is in
step. -/
theorem answers_of_calls (henter : Rendering.enter.Follows σ Rendering.enter) {r : Request}
    (hcall : ∀ t, r.Asks reg t → (call t).Follows σ (call' t)) (hquiet : ¬ r.IsQuiet)
    {ctx ctx' : Context} (hr : σ.Related ctx ctx') :
    σ.Answers r (answer reg call r ctx) (answer reg call' r ctx') := by
  cases r with
  | get | bind | openScope | closeScope | leave | scoping | escape => exact (hquiet trivial).elim
  | enter =>
    have hends := henter ctx ctx' hr
    change σ.Answers .enter (Rendering.enter.attempt ctx) (Rendering.enter.attempt ctx')
    unfold Rendering.attempt
    generalize Rendering.enter ctx = x, Rendering.enter ctx' = y at hends ⊢
    cases hends with
    | exhausted => exact .exhausted
    | together hr hbar => exact .together hr hbar
    | spent hs => exact .spent hs
    | cut hc => exact .cut rfl hc
  | renderBlock b => exact answers_of_asks (.block b) (hcall _ (.block b)) hr
  | renderNode n => exact answers_of_asks (.node n) (hcall _ (.node n)) hr
  | callHelper name params body otherwise =>
    cases hget : Table.get? reg.helpers name with
    | none =>
      simp only [answer, hget]
      exact .together hr fun _ he => by cases he
    | some h => exact answers_of_asks (.helper hget) (hcall _ (.helper hget)) hr
  | callBinder name params names body otherwise =>
    cases hget : Table.get? reg.binders name with
    | none =>
      simp only [answer, hget]
      exact .together hr fun _ he => by cases he
    | some h => exact answers_of_asks (.binder hget) (hcall _ (.binder hget)) hr
  | callPartial name =>
    cases hget : Table.get? reg.partials name with
    | none =>
      simp only [answer, hget]
      exact .together hr fun _ he => by cases he
    | some p => exact answers_of_asks (.registered hget) (hcall _ (.registered hget)) hr

end Evaluation

/-! ## Agreement -/

/-- Two runs that stay in contexts in the relation, and of which neither stops early. -/
def Simulation.of (C : Context → Context → Prop) : Simulation where
  Related := C
  spends := False
  cuts _ := False
  bars _ := False

namespace Rendering

variable {α : Type} {C : Context → Context → Prop} {p q : Rendering α}

/-- From contexts in the relation the renderings end alike, in contexts in the relation. -/
def Agree (C : Context → Context → Prop) (p q : Rendering α) : Prop := p.Follows (.of C) q

/-- How two renderings that agree end. -/
theorem Agree.ends (h : p.Agree C q) {ctx ctx' : Context} (hctx : C ctx ctx') :
    p ctx = none ∧ q ctx' = none ∨
      ∃ r ctx₁ ctx₂, p ctx = some (r, ctx₁) ∧ q ctx' = some (r, ctx₂) ∧ C ctx₁ ctx₂ := by
  have hends := h ctx ctx' hctx
  generalize p ctx = x, q ctx' = y at hends ⊢
  cases hends with
  | exhausted => exact .inl ⟨rfl, rfl⟩
  | together hr _ => exact .inr ⟨_, _, _, rfl, rfl, hr⟩
  | spent hs => exact hs.elim
  | cut hc => exact hc.elim

theorem agree_eq : p.Agree Eq q ↔ p = q := by
  constructor
  · intro h
    funext ctx
    rcases h.ends (rfl : ctx = ctx) with ⟨hp, hq⟩ | ⟨r, ctx₁, _, hp, hq, rfl⟩
    · rw [hp, hq]
    · rw [hp, hq]
  · rintro rfl ctx _ rfl
    generalize p ctx = x
    rcases x with _ | ⟨r, ctx₁⟩
    · exact .exhausted
    · exact .together rfl fun _ _ => id

end Rendering

theorem consistent_eq : (Simulation.of Eq).Consistent where
  get := by rintro _ _ ⟨⟩ _; rfl
  bind := by rintro _ _ ⟨⟩ _ _; rfl
  enter := agree_eq.2 rfl
  leave := by rintro _ _ ⟨⟩; rfl
  noHelper _ := id
  noPartial _ := id

end BraceTemplate
