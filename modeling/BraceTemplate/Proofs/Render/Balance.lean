import BraceTemplate.Proofs.Render.Scripts

/-!
# Renderings are balanced

However a rendering ends, as many blocks and scopes are open as before, and of the scopes only the
innermost can have changed. It changes at keys that some partial of the tree, or of a registered
template, is given an argument for. Host code has to be balanced itself, given that what it
renders is.
-/

namespace BraceTemplate

/-- The contexts differ at most in what the innermost scope binds to keys in `K`. -/
def Context.Changes (K : String → Prop) (ctx ctx' : Context) : Prop :=
  ctx.Framed ctx' ∧
    ∀ key, ¬ K key → Table.get? ctx'.innermost key = Table.get? ctx.innermost key

theorem steady_framed (K : String → Prop) : Steady K Context.Framed where
  refl _ := rfl
  trans := .trans
  leave h := by
    rw [h]
    rfl
  framed _ h := h
  bind _ _ h := h.trans (Context.framed_bind _ _ _)

theorem steady_changes (K : String → Prop) : Steady K (Context.Changes K) where
  refl _ := ⟨rfl, fun _ _ => rfl⟩
  trans h h' := ⟨h.1.trans h'.1, fun key hkey => (h'.2 key hkey).trans (h.2 key hkey)⟩
  leave h := ⟨(steady_framed K).leave h.1, h.2⟩
  framed _ h := h.1
  bind hs hk h := by
    refine ⟨(steady_framed K).bind hs hk h.1, fun key hkey => ?_⟩
    rw [← h.2 key hkey, Context.bind, Table.get?_insert, if_neg]
    rintro rfl
    exact hkey hk

/-- The helpers, binders and script partials are balanced: each leaves all but the innermost scope
as it was, however it ends, if the blocks and nodes that it renders do. -/
def Registry.Balanced (reg : Registry) : Prop := reg.Keeps (fun _ => True) Context.Framed

/-- The helpers, binders and script partials bind nothing in the innermost scope themselves: each
changes it at no key at which what it renders does not. -/
def Registry.BindsNothing (reg : Registry) : Prop := ∀ K, reg.Keeps K (Context.Changes K)

namespace Rendering

variable {α : Type}

/-- However the rendering ends, the depth, the number of scopes and all scopes but the innermost
are as before. -/
def Balanced (p : Rendering α) : Prop :=
  ∀ ctx r ctx', p ctx = some (r, ctx') →
    ctx'.depth = ctx.depth ∧ ctx'.scopeCount = ctx.scopeCount ∧ ctx'.outer = ctx.outer

/-- However the rendering ends, the innermost scope binds the key as before. -/
def LeavesAlone (key : String) (p : Rendering α) : Prop :=
  ∀ ctx r ctx', p ctx = some (r, ctx') →
    Table.get? ctx'.innermost key = Table.get? ctx.innermost key

theorem Keeps.balanced {p : Rendering α} (h : p.Keeps Context.Framed) : p.Balanced := by
  intro ctx r ctx' hp
  have hframed := h hp
  rw [hframed]
  exact ⟨rfl, rfl, rfl⟩

theorem Keeps.leavesAlone {p : Rendering α} {key : String}
    (h : p.Keeps (Context.Changes (· ≠ key))) : p.LeavesAlone key :=
  fun _ _ _ hp => (h hp).2 key fun hne => hne rfl

end Rendering

/-- Rendering is balanced on every exit. If the host binds nothing itself, the innermost scope
keeps its binding of each key that no argument in the tree or in a registered template has. -/
theorem render_balanced {reg : Registry} (hreg : reg.Balanced) :
    (∀ b : Block, (b.render reg).Balanced) ∧ (∀ n : Node, (n.render reg).Balanced) ∧
    (∀ p : Param, (p.evaluate reg).Balanced) ∧ (∀ p : Param, (p.render reg).Balanced) ∧
    (reg.BindsNothing → ∀ key,
      (∀ name root, Table.get? reg.partials name = some (.template root) →
        key ∉ boundKeysBlock root) →
      (∀ b : Block, key ∉ boundKeysBlock b → (b.render reg).LeavesAlone key) ∧
      (∀ n : Node, key ∉ n.boundKeys → (n.render reg).LeavesAlone key) ∧
      (∀ p : Param, key ∉ p.boundKeys → (p.evaluate reg).LeavesAlone key) ∧
      (∀ p : Param, key ∉ p.boundKeys → (p.render reg).LeavesAlone key)) := by
  have hall : ∀ keys, Within (fun _ => True) keys := fun _ _ _ => trivial
  obtain ⟨hb, hn, he, ht⟩ := keeps_render (steady_framed _) hreg fun _ root _ => hall _
  refine ⟨fun b => (hb b (hall _)).balanced, fun n => (hn n (hall _)).balanced,
    fun p => (he p (hall _)).balanced, fun p => (ht p (hall _)).balanced, fun hnothing key hK => ?_⟩
  have hwithin : ∀ {keys}, key ∉ keys → Within (· ≠ key) keys := by
    rintro keys hkey x hx rfl
    exact hkey hx
  obtain ⟨hb, hn, he, ht⟩ := keeps_render (steady_changes (· ≠ key)) (hnothing _)
    fun name root hget => hwithin (hK name root hget)
  exact ⟨fun b h => (hb b (hwithin h)).leavesAlone, fun n h => (hn n (hwithin h)).leavesAlone,
    fun p h => (he p (hwithin h)).leavesAlone, fun p h => (ht p (hwithin h)).leavesAlone⟩

/-! ## A host -/

/-- A helper that renders its body with `x` bound, in a scope of its own. -/
def letHelper : Helper := fun _ body _ => Script.inScope do
  Script.bind "x" (.string "1")
  match body with
  | some b => Script.block b
  | none => return ""

/-- A host with that helper, a template that calls a partial with an argument, and a script that
renders a variable. -/
def letHost : Registry where
  helpers := [("let", letHelper)]
  partials := [("p", .template [.boundPartial "q" [.mk "k" (.path "x")] .none]),
    ("q", .script (Script.text (.path "k")))]

section
variable {call : Task → Rendering String} {K : String → Prop} {R : Context → Context → Prop}

/-- The helper leaves the context as it was, if rendering its body changes no other scope. -/
theorem run_letHelper {params : List Param} {body otherwise : Option Block} {ctx ctx' : Context}
    {r : Except RenderError String}
    (hbody : ∀ b, body = some b → ∀ {ctx₁ r ctx₂}, ctx₁.scoping = ctx.scoping →
      call (.block b) ctx₁ = some (r, ctx₂) → ctx₁.Framed ctx₂)
    (h : Evaluation.run letHost call (letHelper params body otherwise) ctx = some (r, ctx')) :
    ctx' = ctx := by
  refine Evaluation.run_inScope_eq_some (fun {r ctx₁} hrun => ?_) h
  change Evaluation.run letHost call ((Script.bind "x" (.string "1")).andThen fun _ => _) _ = _
    at hrun
  rw [Evaluation.run_andThen] at hrun
  cases body with
  | none =>
    cases hrun
    rfl
  | some b =>
    have hcall : Evaluation.run letHost call (Script.block b)
        (ctx.openScope.bind "x" (.string "1")) = some (r, ctx₁) := hrun
    rw [Evaluation.run_block] at hcall
    exact (Context.framed_bind _ _ _).trans (hbody b rfl rfl hcall)

/-- The scripts of the host keep a relation that, in contexts that scope alike, keeps all but the
innermost scope, or that holds anyway. -/
theorem keeps_letHost (hrefl : ∀ ctx, R ctx ctx)
    (hR : ∀ ctx, (∀ {ctx₁ ctx₂ : Context}, ctx₁.scoping = ctx.scoping → R ctx₁ ctx₂ →
      ctx₁.Framed ctx₂) ∨ ∀ ctx', R ctx ctx') : letHost.Keeps K R := by
  intro call hcall code hcode ctx r ctx' h
  generalize ht : Task.script code = t at hcode
  cases hcode with
  | @helper name _ params body otherwise hget _ hbody _ =>
    cases ht
    simp only [letHost, Table.get?] at hget
    split at hget <;> cases hget
    rcases hR ctx with hframed | hany
    · have hkeep : ∀ b, body = some b → (call (.block b)).Keeps R := by
        rintro b rfl
        exact hcall _ (.block hbody)
      rw [run_letHelper (fun b hb {ctx₁ r ctx₂} hs hc => hframed hs (hkeep b hb hc)) h]
      exact hrefl ctx
    · exact hany ctx'
  | binder hget => cases hget
  | @registered name p hget =>
    simp only [letHost, Table.get?] at hget
    split at hget
    · cases hget
      cases ht
    · split at hget <;> cases hget
      cases ht
      cases h
      exact hrefl ctx
  | _ => cases ht

end

def letNode : Node :=
  .helper .raw "let" [] (some [.boundPartial "p" [.mk "a" (.path "x")] .none]) none .none
    (some .none)

theorem render_balanced_letHost :
    letHost.Balanced ∧ letHost.BindsNothing ∧ (letNode.render letHost).Balanced ∧
      (letNode.render letHost).LeavesAlone "x" := by
  have hbalanced : letHost.Balanced := keeps_letHost (fun _ => rfl) fun _ => .inl fun _ h => h
  have hnothing : letHost.BindsNothing := fun K =>
    keeps_letHost (steady_changes K).refl fun _ => .inl fun _ h => h.1
  obtain ⟨-, hn, -, -, hkeys⟩ := render_balanced hbalanced
  refine ⟨hbalanced, hnothing, hn letNode, (hkeys hnothing "x" ?_).2.1 letNode (by decide)⟩
  intro name root hget
  simp only [letHost, Table.get?] at hget
  split at hget
  · cases hget
    decide
  · split at hget <;> cases hget

end BraceTemplate
