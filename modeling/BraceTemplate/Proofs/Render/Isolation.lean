import BraceTemplate.Proofs.Render.Balance

/-!
# Isolated partials leave no trace

Where the arguments of partials are bound in a scope of their own, rendering leaves the context as
it was, with every binding of every scope, also if it fails half way through the arguments. So
what has been rendered before does not show in a later rendering.
-/

namespace BraceTemplate

/-- A context that isolates partials is left as it was. -/
def Context.Restored (ctx ctx' : Context) : Prop := ctx.scoping = .isolated → ctx' = ctx

theorem steady_restored (K : String → Prop) : Steady K Context.Restored where
  refl _ _ := rfl
  trans h h' hs := by
    obtain rfl := h hs
    exact h' hs
  leave h hs := by
    rw [h hs]
    rfl
  framed hs h := by
    rw [h hs]
    rfl
  bind hs _ _ hs' := by
    rw [hs] at hs'
    cases hs'

/-- The helpers, binders and script partials leave a context that isolates partials as it was,
however they end, if the blocks and nodes that they render do. -/
def Registry.Restoring (reg : Registry) : Prop := reg.Keeps (fun _ => True) Context.Restored

def Rendering.Restores {α : Type} (ctx : Context) (p : Rendering α) : Prop :=
  ∀ r ctx', p ctx = some (r, ctx') → ctx' = ctx

/-- The context after blocks have been rendered one after the other, whatever came out. -/
def renderAll (reg : Registry) : List Block → Context → Option Context
  | [], ctx => some ctx
  | b :: bs, ctx => (b.render reg ctx).bind fun result => renderAll reg bs result.2

theorem renderAll_restores {reg : Registry} {ctx ctx' : Context}
    (hb : ∀ b : Block, (b.render reg).Restores ctx) {bs : List Block}
    (h : renderAll reg bs ctx = some ctx') : ctx' = ctx := by
  induction bs with
  | nil =>
    cases h
    rfl
  | cons b bs ih =>
    obtain ⟨⟨r, ctx₁⟩, hr, hrest⟩ := Option.bind_eq_some_iff.1 h
    obtain rfl := hb b r ctx₁ hr
    exact ih hrest

/-- With isolated partials, rendering leaves the whole context as it was on every exit, and
renderings beforehand do not change the result of a later one. -/
theorem render_isolated {reg : Registry} (hreg : reg.Restoring) {ctx : Context}
    (hctx : ctx.scoping = .isolated) :
    (∀ b : Block, (b.render reg).Restores ctx) ∧ (∀ n : Node, (n.render reg).Restores ctx) ∧
    (∀ p : Param, (p.evaluate reg).Restores ctx) ∧ (∀ p : Param, (p.render reg).Restores ctx) ∧
    (∀ bs ctx', renderAll reg bs ctx = some ctx' →
      ∀ b : Block, b.render reg ctx' = b.render reg ctx) := by
  have hall : ∀ keys, Within (fun _ => True) keys := fun _ _ _ => trivial
  obtain ⟨hb, hn, he, ht⟩ := keeps_render (steady_restored _) hreg fun _ root _ => hall _
  have hblock : ∀ b : Block, (b.render reg).Restores ctx :=
    fun b _ _ h => hb b (hall _) h hctx
  refine ⟨hblock, fun n _ _ h => hn n (hall _) h hctx, fun p _ _ h => he p (hall _) h hctx,
    fun p _ _ h => ht p (hall _) h hctx, fun bs ctx' h b => ?_⟩
  rw [renderAll_restores hblock h]

theorem render_isolated_letHost :
    letHost.Restoring ∧ (letNode.render letHost).Restores {} ∧
      ∃ ctx', renderAll letHost [[letNode]] {} = some ctx' ∧
        Block.render letHost [letNode] ctx' = Block.render letHost [letNode] {} := by
  have hreg : letHost.Restoring := by
    refine keeps_letHost (fun _ _ => rfl) fun ctx => ?_
    cases hs : ctx.scoping with
    | isolated =>
      refine .inl fun {ctx₁ ctx₂} hs₁ h => ?_
      rw [h hs₁]
      rfl
    | shared =>
      refine .inr fun ctx' hs' => ?_
      rw [hs] at hs'
      cases hs'
  have hctx : ({} : Context).scoping = .isolated := rfl
  obtain ⟨-, hn, -, -, hlater⟩ := render_isolated hreg hctx
  have hbefore : renderAll letHost [[letNode]] {} = some {} := rfl
  exact ⟨hreg, hn letNode, {}, hbefore, hlater _ _ hbefore [letNode]⟩

end BraceTemplate
