import BraceTemplate.Proofs.Grammar.Append
import BraceTemplate.Proofs.Render.Depth
import Mathlib

/-!
# Rendering templates one after the other

The nodes of two blocks render one after the other in one level of depth as they do in two, one
opened after the other: the level that is left between the two is entered again. This takes host
code that leaves only levels of its own, for if the first block ends with no level open at all,
there is nothing to leave, and the second block would start one level higher.
-/

namespace BraceTemplate

open Rendering

namespace Evaluation

variable {call : Task → Rendering String}

theorem items_cons (n : Node) (b : Block) :
    items call (n :: b) = (do return (← call (.node n)) ++ (← items call b)) := rfl

/-- The nodes of two blocks put together render one after the other. -/
theorem items_join (hcall : ∀ text, call (.node (.content text)) = pure text) (b b' : Block) :
    items call (b.join b') = (do return (← items call b) ++ (← items call b')) := by
  have hnil : items call [] = pure "" := rfl
  fun_induction Block.join b b' with
  | case1 b' => simp only [hnil, pure_bind, String.empty_append, bind_pure]
  | case2 t t' b' =>
    simp only [items_cons, hnil, hcall, pure_bind, bind_assoc, String.append_empty,
      String.append_assoc]
  | case3 n b b' _ ih => simp only [items_cons, ih, pure_bind, bind_assoc, String.append_assoc]

theorem block_apply (b : Block) (ctx : Context) :
    block call b ctx = if ctx.maxDepth ≤ ctx.depth then some (.error (.tooDeep ctx.maxDepth), ctx)
      else (items call b { ctx with depth := ctx.depth + 1 }).map fun x => (x.1, x.2.leave) := by
  change (Rendering.enter.andThen fun _ => (items call b).andFinally .leave) ctx = _
  unfold Rendering.andThen Rendering.enter Context.enter
  by_cases h : ctx.maxDepth ≤ ctx.depth
  · rw [if_pos h, if_pos h]
  · rw [if_neg h, if_neg h]
    change (items call b).andFinally .leave _ = _
    unfold Rendering.andFinally
    rcases items call b _ with _ | ⟨_, ctx'⟩ <;> rfl

/-- A level that is left and entered again is as before, if there was one to leave. -/
theorem block_leave (b : Block) {ctx : Context} (hpos : 0 < ctx.depth)
    (hle : ctx.depth ≤ ctx.maxDepth) :
    block call b ctx.leave = (items call b ctx).map fun x => (x.1, x.2.leave) := by
  have hopen : ¬ ctx.leave.maxDepth ≤ ctx.leave.depth := by
    simp only [Context.leave]
    omega
  have hsame : { ctx.leave with depth := ctx.leave.depth + 1 } = ctx := by
    have : ctx.depth - 1 + 1 = ctx.depth := by omega
    simp only [Context.leave, this]
  rw [block_apply, if_neg hopen, hsame]

/-- Two blocks put together render as the one and then the other, if the nodes of the first stay
in the limit and gain no room. -/
theorem block_join (hcall : ∀ text, call (.node (.content text)) = pure text) {b : Block}
    (hlimit : (items call b).Meets (.limited fun _ _ => True))
    (hroom : (items call b).Meets (.noGain fun _ => True)) (b' : Block) :
    block call (b.join b') = (do return (← block call b) ++ (← block call b')) := by
  have hbind : ∀ {β γ : Type} (p : Rendering β) (f : β → Rendering γ) ctx,
      (p >>= f) ctx = p.andThen f ctx := fun _ _ _ => rfl
  funext ctx
  rw [hbind, block_apply, items_join hcall]
  unfold Rendering.andThen
  rw [block_apply]
  by_cases h : ctx.maxDepth ≤ ctx.depth
  · rw [if_pos h, if_pos h]
  rw [if_neg h, if_neg h, hbind]
  unfold Rendering.andThen
  have hlimit := hlimit { ctx with depth := ctx.depth + 1 }
  have hroom := hroom { ctx with depth := ctx.depth + 1 }
  unfold ending at hlimit hroom
  cases hfirst : items call b { ctx with depth := ctx.depth + 1 } with
  | none => rfl
  | some x =>
    rw [hfirst] at hlimit hroom
    obtain ⟨e | first, ctx'⟩ := x
    · rfl
    obtain ⟨hmax, hle⟩ : Context.InLimit { ctx with depth := ctx.depth + 1 } ctx' := hlimit
    have hroom : ctx'.room ≤ Context.room { ctx with depth := ctx.depth + 1 } := hroom
    simp only [Context.room] at hmax hle hroom
    simp only [Option.map_some, hbind]
    unfold Rendering.andThen
    -- no room was gained, so the level of the first block is still open, and can be entered again
    rw [block_leave b' (by omega) (by omega)]
    rcases items call b' ctx' with _ | ⟨_ | second, ctx''⟩ <;> rfl

end Evaluation

/-- Where the host leaves only levels of its own, two blocks put together render as the one and
then the other. -/
theorem render_join {reg : Registry} (hreg : reg.LeavesOwn) (b b' : Block) :
    (b.join b').render reg = (do return (← b.render reg) ++ (← b'.render reg)) := by
  obtain ⟨budget, hbudget⟩ := openCalls_eq
  have hitems : ∀ {Q : Contract}, Q.Stable → (∀ t, t.LeavesOwn →
      (evaluate reg (budget + 1) t).Meets Q) →
      (Evaluation.items (evaluate reg (budget + 1)) b).Meets Q :=
    fun hQ h => Evaluation.meets_items hQ fun n _ => h (.node n) trivial
  have hjoin := Evaluation.block_join (fun _ => rfl)
    (hitems (stable_limited _) fun t _ => evaluate_limited reg _ t)
    (hitems (stable_noGain fun _ => id) fun t ht => evaluate_noGain hreg _ ht) b'
  simp only [Block.render, hbudget]
  exact hjoin

/-- Two texts that are templates are one together, and it renders as the first and then the second
in the context that the first leaves: an error of either ends the whole, and otherwise the outputs
stand one after the other. -/
theorem render_append {t t' : String} {b b' : Block} (h : parse t = .ok b) (h' : parse t' = .ok b')
    (hseam : ¬ (t.toList.getLast? = some '{' ∧ t'.toList.head? = some '{')) :
    ∃ joined : Block, parse (t ++ t') = .ok joined ∧ ∀ reg : Registry, reg.LeavesOwn →
      ∀ ctx, joined.render reg ctx = match b.render reg ctx with
        | some (.ok first, ctx₁) => match b'.render reg ctx₁ with
          | some (.ok second, ctx₂) => some (.ok (first ++ second), ctx₂)
          | failed => failed
        | failed => failed := by
  refine ⟨b.join b', parseWithin_append h h' hseam, fun reg hreg ctx => ?_⟩
  rw [render_join hreg]
  change (b.render reg).andThen (fun first => (b'.render reg).andThen fun second =>
    succeed (first ++ second)) ctx = _
  unfold andThen
  rcases b.render reg ctx with _ | ⟨_ | first, ctx₁⟩
  · rfl
  · rfl
  · simp only
    rcases b'.render reg ctx₁ with _ | ⟨_ | second, ctx₂⟩ <;> rfl

theorem render_append_letHost :
    ∃ joined : Block,
      parse ("a\x7b\x7b#let\x7d\x7db\x7b\x7b/let\x7d\x7d" ++ "c\x7b\x7b> p a=x\x7d\x7d") =
        .ok joined ∧
      letHost.LeavesOwn ∧ joined.render letHost {} = some (.ok "abc", {}) := by
  obtain ⟨joined, hparse, hrender⟩ := render_append
    (show parse "a\x7b\x7b#let\x7d\x7db\x7b\x7b/let\x7d\x7d" = .ok [.content "a",
      .helper .raw "let" [] (some [.content "b"]) none .none (some .none)] by cbv)
    (show parse "c\x7b\x7b> p a=x\x7d\x7d" = .ok [.content "c",
      .boundPartial "p" [.mk "a" (.path "x")] .none] by cbv) (by decide)
  refine ⟨joined, hparse, leavesOwn_letHost, ?_⟩
  rw [hrender letHost leavesOwn_letHost]
  rfl

/-- A host with a helper that leaves the level of the block that it is called in, and one that
renders its body. -/
def exitHost : Registry where
  helpers := [("h", fun _ _ _ => .ask .leave fun _ => .done ""),
    ("k", fun _ body _ => Script.block (body.getD []))]

/-- What such a host renders depends on where a template ends: the level that it leaves in the first
text is free for the body in the second only if the two are one template. -/
theorem render_append_exitHost :
    let t := "\x7b\x7bh\x7d\x7d"
    let t' := "\x7b\x7b#k\x7d\x7dx\x7b\x7b/k\x7d\x7d"
    ∃ b b' joined : Block, parse t = .ok b ∧ parse t' = .ok b' ∧
      ¬ (t.toList.getLast? = some '{' ∧ t'.toList.head? = some '{') ∧
      parse (t ++ t') = .ok joined ∧
      joined.render exitHost { maxDepth := 1 } = some (.ok "x", { maxDepth := 1 }) ∧
      b.render exitHost { maxDepth := 1 } = some (.ok "", { maxDepth := 1 }) ∧
      b'.render exitHost { maxDepth := 1 } = some (.error (.tooDeep 1), { maxDepth := 1 }) := by
  let leaving : Node := .reference .escaped "h" .none
  let nested : Node := .helper .raw "k" [] (some [.content "x"]) none .none (some .none)
  exact ⟨[leaving], [nested], [leaving, nested], by cbv, by cbv, by decide, by cbv, rfl, rfl, rfl⟩

end BraceTemplate
