import BraceTemplate.Render.Evaluation

/-!
# What renderings keep

`Keeps R p` says that the rendering `p` leaves a context in the relation `R` to the one it started
from, whether it succeeds or ends in an error. `Steady` names what the evaluator itself does to a
context: it counts blocks, and it binds the arguments of partials. If these steps stay within `R`,
and the scripts of the host stay within `R` whenever what they render does, then every rendering
keeps `R` (`keeps_evaluate`).
-/

namespace BraceTemplate

/-! ## The keys a tree binds -/

mutual

/-- The keys that a node binds while it renders. The arguments of a plain partial are not looked
at. -/
def Node.boundKeys : Node → List String
  | .content _ | .literal _ | .reference _ _ _ | .plainPartial _ _ _ => []
  | .helper _ _ params body otherwise _ _ =>
    boundKeysParams params ++ (boundKeysBody body ++ boundKeysBody otherwise)
  | .binder _ params _ body otherwise _ =>
    boundKeysParams params ++ (boundKeysBlock body ++ boundKeysBody otherwise)
  | .boundPartial _ args _ => boundKeysArguments args
  | .block b => boundKeysBlock b

def Param.boundKeys : Param → List String
  | .path _ => []
  | .node n => n.boundKeys

def boundKeysParams : List Param → List String
  | [] => []
  | p :: params => p.boundKeys ++ boundKeysParams params

/-- The keys that the arguments of a partial bind: their own, and those of their values. -/
def boundKeysArguments : List Argument → List String
  | [] => []
  | .mk key value :: args => key :: (value.boundKeys ++ boundKeysArguments args)

def boundKeysBody : Option (List Node) → List String
  | none => []
  | some b => boundKeysBlock b

def boundKeysBlock : List Node → List String
  | [] => []
  | n :: b => n.boundKeys ++ boundKeysBlock b

end

def Within (K : String → Prop) (keys : List String) : Prop := ∀ key ∈ keys, K key

section
variable {K : String → Prop} {xs ys : List String}

theorem within_nil : Within K [] := by simp [Within]

theorem within_append : Within K (xs ++ ys) ↔ Within K xs ∧ Within K ys := by
  simp only [Within, List.mem_append]
  exact ⟨fun h => ⟨fun x hx => h x (.inl hx), fun x hx => h x (.inr hx)⟩,
    fun h x hx => hx.elim (h.1 x) (h.2 x)⟩

theorem within_cons {key : String} : Within K (key :: xs) ↔ K key ∧ Within K xs := by
  simp [Within]

end

/-- The tasks that come up in a rendering: the blocks and nodes that bind only keys in `K`, the
scripts of the registry with parameters and bodies that do so, and the registered partials. -/
inductive Covered (reg : Registry) (K : String → Prop) : Task → Prop
  | block {b : Block} : Within K (boundKeysBlock b) → Covered reg K (.block b)
  | node {n : Node} : Within K n.boundKeys → Covered reg K (.node n)
  | helper {name : String} {h : Helper} {params : List Param} {body otherwise : Option Block} :
      Table.get? reg.helpers name = some h → Within K (boundKeysParams params) →
      Within K (boundKeysBody body) → Within K (boundKeysBody otherwise) →
      Covered reg K (.script (h params body otherwise))
  | binder {name : String} {h : Binder} {params : List Param} {names : List String}
      {body : Block} {otherwise : Option Block} :
      Table.get? reg.binders name = some h → Within K (boundKeysParams params) →
      Within K (boundKeysBlock body) → Within K (boundKeysBody otherwise) →
      Covered reg K (.script (h params names body otherwise))
  | registered {name : String} {p : Partial} :
      Table.get? reg.partials name = some p → Covered reg K p.task

/-! ## Keeping a relation -/

namespace Rendering

variable {α β : Type} {R : Context → Context → Prop} {p : Rendering α} {f : α → Rendering β}

/-- The rendering leaves a context that is in the relation to the one it starts from, also if it
ends in an error. -/
def Keeps (R : Context → Context → Prop) (p : Rendering α) : Prop :=
  ∀ ⦃ctx r ctx'⦄, p ctx = some (r, ctx') → R ctx ctx'

theorem keeps_read (hrefl : ∀ ctx, R ctx ctx) (g : Context → α) : (Rendering.read g).Keeps R := by
  intro ctx r ctx' h
  cases h
  exact hrefl _

theorem keeps_pure (hrefl : ∀ ctx, R ctx ctx) (a : α) : (pure a : Rendering α).Keeps R :=
  keeps_read hrefl fun _ => a

theorem keeps_throw (hrefl : ∀ ctx, R ctx ctx) (e : RenderError) :
    (throw e : Rendering α).Keeps R := by
  intro ctx r ctx' h
  cases h
  exact hrefl _

theorem keeps_exhausted : (exhausted : Rendering α).Keeps R := by
  intro ctx r ctx' h
  cases h

/-- The two ways in which a sequence ends. -/
theorem bind_eq_some {ctx ctx' : Context} {r : Except RenderError β}
    (h : (p >>= f) ctx = some (r, ctx')) :
    (∃ e, p ctx = some (.error e, ctx') ∧ r = .error e) ∨
      ∃ a ctx₁, p ctx = some (.ok a, ctx₁) ∧ f a ctx₁ = some (r, ctx') := by
  change (p.andThen f) ctx = _ at h
  unfold andThen at h
  split at h
  · cases h
  · rename_i e ctx₁ hp
    cases h
    exact .inl ⟨e, hp, rfl⟩
  · rename_i a ctx₁ hp
    exact .inr ⟨a, ctx₁, hp, h⟩

theorem Keeps.bind (htrans : ∀ {a b c}, R a b → R b c → R a c) (hp : p.Keeps R)
    (hf : ∀ a, (f a).Keeps R) : (p >>= f).Keeps R := by
  intro ctx r ctx' h
  rcases bind_eq_some h with ⟨e, h, -⟩ | ⟨a, ctx₁, h, h'⟩
  · exact hp h
  · exact htrans (hp h) (hf a h')

theorem andFinally_eq_some {g : Context → Context} {ctx ctx' : Context}
    {r : Except RenderError α} (h : p.andFinally g ctx = some (r, ctx')) :
    ∃ ctx₁, p ctx = some (r, ctx₁) ∧ ctx' = g ctx₁ := by
  unfold andFinally at h
  split at h
  · cases h
  · rename_i hp
    cases h
    exact ⟨_, hp, rfl⟩

theorem enter_error {ctx ctx' : Context} {e : RenderError}
    (h : enter ctx = some (.error e, ctx')) : ctx' = ctx := by
  unfold enter at h
  split at h <;> cases h
  rfl

theorem enter_ok {ctx ctx' : Context} {u : Unit} (h : enter ctx = some (.ok u, ctx')) :
    ctx' = { ctx with depth := ctx.depth + 1 } := by
  unfold enter Context.enter at h
  split at h
  · cases h
  · rename_i hctx
    split at hctx <;> cases hctx
    cases h
    rfl

end Rendering

/-- The two contexts differ at most in the innermost scope. -/
def Context.Framed (ctx ctx' : Context) : Prop := ctx' = { ctx with innermost := ctx'.innermost }

namespace Context

variable {ctx ctx₁ ctx' : Context}

theorem Framed.trans (h : ctx.Framed ctx₁) (h' : ctx₁.Framed ctx') : ctx.Framed ctx' := by
  unfold Framed at *
  rw [h', h]

theorem framed_bind (ctx : Context) (key : String) (v : Value) : ctx.Framed (ctx.bind key v) := rfl

theorem Framed.scoping (h : ctx.Framed ctx') : ctx'.scoping = ctx.scoping := by rw [h]

/-- A scope that is opened and then closed takes all that happened in between with it. -/
theorem Framed.closeScope (h : ctx.openScope.Framed ctx') : ctx'.closeScope = ctx := by
  rw [h]
  rfl

end Context

/-- What the evaluator does by itself stays within the relation: it counts a block that renders,
and it binds keys in `K` where partials share the scope of their caller. Where they do not, the
relation keeps all but the innermost scope, which is dropped after a partial. -/
structure Steady (K : String → Prop) (R : Context → Context → Prop) : Prop where
  refl : ∀ ctx, R ctx ctx
  trans : ∀ {a b c}, R a b → R b c → R a c
  leave : ∀ {ctx ctx' : Context}, R { ctx with depth := ctx.depth + 1 } ctx' → R ctx ctx'.leave
  framed : ∀ {ctx ctx' : Context}, ctx.scoping = .isolated → R ctx ctx' → ctx.Framed ctx'
  bind : ∀ {ctx ctx' : Context} {key : String} {v : Value}, ctx.scoping = .shared → K key →
    R ctx ctx' → R ctx (ctx'.bind key v)

/-- The scripts of the registry keep the relation if what they render does. -/
def Registry.Keeps (reg : Registry) (K : String → Prop) (R : Context → Context → Prop) : Prop :=
  ∀ call, (∀ t, Covered reg K t → (call t).Keeps R) →
    ∀ code, Covered reg K (.script code) → (Evaluation.run reg call code).Keeps R

/-! ## The evaluator -/

namespace Evaluation

open Rendering

variable {reg : Registry} {K : String → Prop} {R : Context → Context → Prop}
variable {call : Task → Rendering String}

section
variable (hR : Steady K R) (hcall : ∀ t, Covered reg K t → (call t).Keeps R)
include hR hcall

theorem keeps_value {p : Param} (hp : Within K p.boundKeys) : (value call p).Keeps R := by
  cases p with
  | path => exact keeps_read hR.refl _
  | node n =>
    rw [Param.boundKeys] at hp
    exact (hcall _ (.node hp)).bind hR.trans fun _ => keeps_pure hR.refl _

theorem keeps_text {p : Param} (hp : Within K p.boundKeys) : (text call p).Keeps R := by
  cases p with
  | path => exact (keeps_read hR.refl _).bind hR.trans fun _ => keeps_pure hR.refl _
  | node n =>
    rw [Param.boundKeys] at hp
    exact hcall _ (.node hp)

theorem keeps_missingHelper (name : String) : (missingHelper reg call name).Keeps R := by
  unfold missingHelper
  split
  · rename_i h hget
    refine hcall _ (.helper hget ?_ within_nil within_nil)
    simp [boundKeysParams, Param.literal, Param.boundKeys, Node.boundKeys, within_nil]
  · exact keeps_throw hR.refl _

theorem keeps_callHelper {name : String} {params : List Param} {body otherwise : Option Block}
    (hparams : Within K (boundKeysParams params)) (hbody : Within K (boundKeysBody body))
    (hother : Within K (boundKeysBody otherwise)) :
    (callHelper reg call name params body otherwise).Keeps R := by
  unfold callHelper
  split
  · rename_i h hget
    exact hcall _ (.helper hget hparams hbody hother)
  · exact keeps_missingHelper hR hcall name

theorem keeps_callBinder {name : String} {params : List Param} {names : List String} {body : Block}
    {otherwise : Option Block} (hparams : Within K (boundKeysParams params))
    (hbody : Within K (boundKeysBlock body)) (hother : Within K (boundKeysBody otherwise)) :
    (callBinder reg call name params names body otherwise).Keeps R := by
  unfold callBinder
  split
  · rename_i h hget
    exact hcall _ (.binder hget hparams hbody hother)
  · exact keeps_missingHelper hR hcall name

theorem keeps_callPartial (name : String) (trim : Trim) :
    (callPartial reg call name trim).Keeps R := by
  unfold callPartial
  split
  · rename_i p hget
    exact (hcall _ (.registered hget)).bind hR.trans fun _ => keeps_pure hR.refl _
  · exact keeps_throw hR.refl _

/-- Where partials share the scope of their caller, binding their arguments stays within the
relation to any context before. -/
theorem bindArguments_shared {args : List Argument}
    (hargs : Within K (boundKeysArguments args)) {ctx₀ ctx ctx' : Context}
    {r : Except RenderError Unit} (hs : ctx₀.scoping = .shared) (h₀ : R ctx₀ ctx)
    (h : bindArguments call args ctx = some (r, ctx')) : R ctx₀ ctx' := by
  induction args generalizing ctx with
  | nil =>
    cases h
    exact h₀
  | cons a args ih =>
    obtain ⟨key, value⟩ := a
    rw [boundKeysArguments, within_cons, within_append] at hargs
    obtain ⟨hkey, hval, hargs⟩ := hargs
    have hkeep := keeps_value hR hcall hval
    rcases bind_eq_some h with ⟨e, hv, -⟩ | ⟨v, ctx₁, hv, h⟩
    · exact hR.trans h₀ (hkeep hv)
    · exact ih hargs (hR.bind hs hkey (hR.trans h₀ (hkeep hv))) h

/-- Elsewhere it changes the innermost scope only, whatever the arguments. -/
theorem bindArguments_isolated {args : List Argument}
    (hargs : Within K (boundKeysArguments args)) {ctx ctx' : Context}
    {r : Except RenderError Unit} (hs : ctx.scoping = .isolated)
    (h : bindArguments call args ctx = some (r, ctx')) : ctx.Framed ctx' := by
  induction args generalizing ctx with
  | nil =>
    cases h
    rfl
  | cons a args ih =>
    obtain ⟨key, value⟩ := a
    rw [boundKeysArguments, within_cons, within_append] at hargs
    obtain ⟨-, hval, hargs⟩ := hargs
    have hkeep := keeps_value hR hcall hval
    rcases bind_eq_some h with ⟨e, hv, -⟩ | ⟨v, ctx₁, hv, h⟩
    · exact hR.framed hs (hkeep hv)
    · have h₁ := (hR.framed hs (hkeep hv)).trans (ctx₁.framed_bind key v)
      exact h₁.trans (ih hargs (h₁.scoping.trans hs) h)

theorem keeps_boundPartial {args : List Argument}
    (hargs : Within K (boundKeysArguments args)) (name : String) (trim : Trim) :
    (inArgumentScope do
      bindArguments call args
      callPartial reg call name trim).Keeps R := by
  intro ctx r ctx' h
  have hpartial := keeps_callPartial hR hcall name trim
  unfold inArgumentScope at h
  split at h
  · rename_i hs
    -- the scope of the arguments is dropped however far the partial got
    obtain ⟨ctx₁, hinside, rfl⟩ := andFinally_eq_some h
    have hs : ctx.openScope.scoping = .isolated := hs
    have hframed : ctx.openScope.Framed ctx₁ := by
      rcases bind_eq_some hinside with ⟨e, hbind, -⟩ | ⟨_, ctx₂, hbind, hcalled⟩
      · exact bindArguments_isolated hR hcall hargs hs hbind
      · have h₂ := bindArguments_isolated hR hcall hargs hs hbind
        exact h₂.trans (hR.framed (h₂.scoping.trans hs) (hpartial hcalled))
    rw [hframed.closeScope]
    exact hR.refl ctx
  · rename_i hs
    rcases bind_eq_some h with ⟨e, hbind, -⟩ | ⟨_, ctx₂, hbind, hcalled⟩
    · exact bindArguments_shared hR hcall hargs hs (hR.refl ctx) hbind
    · exact hR.trans (bindArguments_shared hR hcall hargs hs (hR.refl ctx) hbind)
        (hpartial hcalled)

theorem keeps_node {n : Node} (hn : Within K n.boundKeys) : (node reg call n).Keeps R := by
  cases n with
  | content | literal => exact keeps_pure hR.refl _
  | reference output path trim =>
    rw [node]
    split
    · rename_i h hget
      exact (hcall _ (.helper hget within_nil within_nil within_nil)).bind hR.trans fun _ =>
        keeps_pure hR.refl _
    · exact (keeps_text hR hcall within_nil).bind hR.trans fun _ => keeps_pure hR.refl _
  | helper output name params body otherwise trim marks =>
    rw [Node.boundKeys, within_append, within_append] at hn
    exact (keeps_callHelper hR hcall hn.1 hn.2.1 hn.2.2).bind hR.trans fun _ =>
      keeps_pure hR.refl _
  | binder name params names body otherwise marks =>
    rw [Node.boundKeys, within_append, within_append] at hn
    exact keeps_callBinder hR hcall hn.1 hn.2.1 hn.2.2
  | plainPartial name args trim => exact keeps_callPartial hR hcall name trim
  | boundPartial name args trim =>
    rw [Node.boundKeys] at hn
    exact keeps_boundPartial hR hcall hn name trim
  | block b =>
    rw [Node.boundKeys] at hn
    exact hcall _ (.block hn)

theorem keeps_items {b : Block} (hb : Within K (boundKeysBlock b)) : (items call b).Keeps R := by
  induction b with
  | nil => exact keeps_pure hR.refl _
  | cons n b ih =>
    rw [boundKeysBlock, within_append] at hb
    exact (hcall _ (.node hb.1)).bind hR.trans fun _ =>
      (ih hb.2).bind hR.trans fun _ => keeps_pure hR.refl _

theorem keeps_block {b : Block} (hb : Within K (boundKeysBlock b)) : (block call b).Keeps R := by
  intro ctx r ctx' h
  rcases bind_eq_some h with ⟨e, henter, -⟩ | ⟨_, ctx₁, henter, hinside⟩
  · exact enter_error henter ▸ hR.refl ctx
  · obtain rfl := enter_ok henter
    obtain ⟨ctx₂, hitems, rfl⟩ := andFinally_eq_some hinside
    exact hR.leave (keeps_items hR hcall hb hitems)

end

end Evaluation

section
variable {reg : Registry} {K : String → Prop}

theorem Covered.within_block
    (hK : ∀ name root, Table.get? reg.partials name = some (.template root) →
      Within K (boundKeysBlock root)) {b : Block} (h : Covered reg K (.block b)) :
    Within K (boundKeysBlock b) := by
  generalize ht : Task.block b = t at h
  cases h with
  | block hb =>
    cases ht
    exact hb
  | @registered name p hget =>
    cases p with
    | template root =>
      cases ht
      exact hK name _ hget
    | script => cases ht
  | _ => cases ht

theorem Covered.within_node {n : Node} (h : Covered reg K (.node n)) : Within K n.boundKeys := by
  generalize ht : Task.node n = t at h
  cases h with
  | node hn =>
    cases ht
    exact hn
  | @registered name p hget => cases p <;> cases ht
  | _ => cases ht

end

/-- Every rendering of what comes up keeps the relation, with any budget, if the keys of the
registered templates are among those that may be bound. -/
theorem keeps_evaluate {reg : Registry} {K : String → Prop} {R : Context → Context → Prop}
    (hR : Steady K R) (hreg : reg.Keeps K R)
    (hK : ∀ name root, Table.get? reg.partials name = some (.template root) →
      Within K (boundKeysBlock root)) (budget : Nat) :
    ∀ t, Covered reg K t → (evaluate reg budget t).Keeps R := by
  induction budget with
  | zero => exact fun t _ => Rendering.keeps_exhausted
  | succ budget ih =>
    intro t ht
    cases t with
    | block b => exact Evaluation.keeps_block hR ih (ht.within_block hK)
    | node n => exact Evaluation.keeps_node hR ih ht.within_node
    | script code => exact hreg _ ih code ht

/-- The four renderings of a tree keep the relation. -/
theorem keeps_render {reg : Registry} {K : String → Prop} {R : Context → Context → Prop}
    (hR : Steady K R) (hreg : reg.Keeps K R)
    (hK : ∀ name root, Table.get? reg.partials name = some (.template root) →
      Within K (boundKeysBlock root)) :
    (∀ b : Block, Within K (boundKeysBlock b) → (b.render reg).Keeps R) ∧
    (∀ n : Node, Within K n.boundKeys → (n.render reg).Keeps R) ∧
    (∀ p : Param, Within K p.boundKeys → (p.evaluate reg).Keeps R) ∧
    (∀ p : Param, Within K p.boundKeys → (p.render reg).Keeps R) := by
  have h := keeps_evaluate hR hreg hK openCalls
  exact ⟨fun b hb => h _ (.block hb), fun n hn => h _ (.node hn),
    fun p hp => Evaluation.keeps_value hR h hp, fun p hp => Evaluation.keeps_text hR h hp⟩

end BraceTemplate
