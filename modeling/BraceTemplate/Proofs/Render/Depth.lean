import BraceTemplate.Proofs.Render.Contract

/-!
# The depth of renderings

A script keeps a relation between contexts if its requests do, one by one (`run_keeping`). So no
rendering changes the depth limit or passes it, and if the host leaves only levels that it has
entered, no rendering gains room for further levels. The two contracts also say what is needed of
an error (`Contract.limited`) and of an exhausted budget (`Contract.noGain`), so that both serve
more than one purpose.
-/

namespace BraceTemplate

open Rendering

variable {reg : Registry} {call : Task → Rendering String} {α : Type}

/-- How many more levels may be entered. -/
def Context.room (ctx : Context) : Nat := ctx.maxDepth - ctx.depth

/-- The depth limit is as before, and it is kept if it was kept before. -/
def Context.InLimit (ctx ctx' : Context) : Prop :=
  ctx'.maxDepth = ctx.maxDepth ∧ (ctx.depth ≤ ctx.maxDepth → ctx'.depth ≤ ctx'.maxDepth)

theorem Context.InLimit.refl (ctx : Context) : ctx.InLimit ctx := ⟨rfl, id⟩

theorem Context.InLimit.trans {ctx ctx₁ ctx₂ : Context} (h : ctx.InLimit ctx₁)
    (h' : ctx₁.InLimit ctx₂) : ctx.InLimit ctx₂ :=
  ⟨h'.1.trans h.1, fun hle => h'.2 (h.2 hle)⟩

theorem Context.closeScope_maxDepth (ctx : Context) : ctx.closeScope.maxDepth = ctx.maxDepth := by
  unfold closeScope
  split <;> rfl

theorem Context.closeScope_depth (ctx : Context) : ctx.closeScope.depth = ctx.depth := by
  unfold closeScope
  split <;> rfl

/-! ## What scripts keep -/

/-- The contexts at the start and at the end are related by `S`, and an error is among those that
`E` has for the start. -/
def Contract.keeping (S : Context → Context → Prop) (E : Context → RenderError → Prop) : Contract :=
  fun ctx o =>
    match o with
    | .exhausted => True
    | .success ctx' => S ctx ctx'
    | .failure e ctx' => S ctx ctx' ∧ E ctx e

/-- What a script does to a context by itself stays within `S` if its requests are in `p`, and the
contexts that are related have the same errors. -/
structure Contract.Kept (p : Request → Prop) (S : Context → Context → Prop)
    (E : Context → RenderError → Prop) : Prop where
  trans : ∀ {a b c : Context}, S a b → S b c → S a c
  error : ∀ {a b : Context} {e : RenderError}, S a b → (E b e ↔ E a e)
  quiet : ∀ {a b : Context}, b.maxDepth = a.maxDepth → b.depth = a.depth → S a b
  leave : p .leave → ∀ ctx : Context, S ctx ctx.leave
  enter : p .enter → ∀ ctx : Context, ctx.depth < ctx.maxDepth →
    S ctx { ctx with depth := ctx.depth + 1 }
  deep : p .enter → ∀ ctx : Context, E ctx (.tooDeep ctx.maxDepth)

section
variable {p : Request → Prop} {S : Context → Context → Prop} {E : Context → RenderError → Prop}

theorem stable_keeping (h : Contract.Kept p S E) : (Contract.keeping S E).Stable where
  refl _ := h.quiet rfl rfl
  next {ctx ctx' o} hs ho := by
    cases o with
    | exhausted => trivial
    | success => exact h.trans hs ho
    | failure e => exact ⟨h.trans hs ho.1, (h.error hs).1 ho.2⟩
  bind _ _ _ := h.quiet rfl rfl
  scope {ctx o} ho := by
    have hopen : S ctx ctx.openScope := h.quiet rfl rfl
    have hclose : ∀ ctx', S ctx.openScope ctx' → S ctx ctx'.closeScope := fun ctx' hs =>
      h.trans (h.trans hopen hs) (h.quiet ctx'.closeScope_maxDepth ctx'.closeScope_depth)
    cases o with
    | exhausted => trivial
    | success ctx' => exact hclose ctx' ho
    | failure e ctx' => exact ⟨hclose ctx' ho.1, (h.error hopen).1 ho.2⟩

/-- A script with requests in `p` stays within the relation if what it asks for does. Its errors are
those that it raises itself and those that it is answered with. -/
theorem run_keeping (h : Contract.Kept p S E) {code : Script α} {F : RenderError → Prop}
    (hask : code.AsksOnly reg fun t => (call t).Meets (.keeping S E))
    (hrequest : code.RequestsOnly p) (hraise : code.RaisesOnly F) {ctx : Context}
    (hF : ∀ e, F e → E ctx e) :
    Contract.keeping S E ctx ((Evaluation.run reg call code).ending ctx) := by
  induction code generalizing F ctx with
  | done a => exact h.quiet rfl rfl
  | fail e => exact ⟨h.quiet rfl rfl, hF e hraise⟩
  | ask r next ih =>
    -- the errors that the rest may end in grow by the one in the answer, if there is one
    have hgo : ∀ a ctx', S ctx ctx' → (∀ e, r.error? a = some e → E ctx e) →
        Contract.keeping S E ctx ((Evaluation.run reg call (next a)).ending ctx') := by
      intro a ctx' hs herror
      refine (stable_keeping h).next hs
        (ih a (hask.2 a) (hrequest.2 a) (hraise a) fun e he => (h.error hs).2 ?_)
      exact he.elim (hF e) (herror e)
    have hanswer := Evaluation.answered reg call ctx r
    change Contract.keeping S E ctx
      ((Evaluation.answer reg call r >>= fun a => Evaluation.run reg call (next a)).ending ctx)
    rw [ending_bind]
    generalize Evaluation.answer reg call r ctx = o at hanswer ⊢
    cases hanswer with
    | exhausted => trivial
    | @asked _ t result a ctx' ht hcall herror _ =>
      have hmeets := hask.1 t ht ctx
      unfold ending at hmeets
      rw [hcall] at hmeets
      cases result with
      | ok => exact hgo a ctx' hmeets fun e he => by simp [herror, failure?] at he
      | error e =>
        refine hgo a ctx' hmeets.1 fun e' he => ?_
        obtain rfl : e = e' := by simpa [herror, failure?] using he
        exact hmeets.2
    | @quiet _ a ctx' herror _ hmax hdepth =>
      refine hgo a ctx' (h.quiet hmax hdepth) fun e he => ?_
      rw [herror] at he
      cases he
    | left => exact hgo () ctx.leave (h.leave hrequest.1 ctx) fun e he => by cases he
    | entered hlt => exact hgo _ _ (h.enter hrequest.1 ctx hlt) fun e he => by cases he
    | refused =>
      refine hgo _ _ (h.quiet rfl rfl) fun e he => ?_
      cases he
      exact h.deep hrequest.1 ctx

end

/-! ## The limit, and errors under it -/

/-- The rendering stays in the limit, and an error is among those that `E` has for the limit. -/
def Contract.limited (E : Nat → RenderError → Prop) : Contract := fun ctx o =>
  match o with
  | .exhausted => True
  | .success ctx' => ctx.InLimit ctx'
  | .failure e ctx' => ctx.InLimit ctx' ∧ E ctx.maxDepth e

section
variable {E : Nat → RenderError → Prop}

theorem limited_eq_keeping (E : Nat → RenderError → Prop) :
    Contract.limited E = .keeping Context.InLimit fun ctx => E ctx.maxDepth := by
  funext ctx o
  cases o <;> rfl

theorem kept_limited {p : Request → Prop} (hE : p .enter → ∀ m, E m (.tooDeep m)) :
    Contract.Kept p Context.InLimit fun ctx => E ctx.maxDepth where
  trans := .trans
  error h := by rw [h.1]
  quiet hmax hdepth := ⟨hmax, fun h => by rwa [hmax, hdepth]⟩
  leave _ _ := ⟨rfl, fun h => Nat.le_trans (Nat.sub_le _ _) h⟩
  enter _ _ hlt := ⟨rfl, fun _ => hlt⟩
  deep hp _ := hE hp _

theorem stable_limited (E : Nat → RenderError → Prop) : (Contract.limited E).Stable := by
  rw [limited_eq_keeping]
  exact stable_keeping (p := fun _ => False) (kept_limited False.elim)

theorem limited_level {ctx : Context} {o : Ending} (hroom : ctx.depth < ctx.maxDepth)
    (h : Contract.limited E { ctx with depth := ctx.depth + 1 } o) :
    Contract.limited E ctx (o.map Context.leave) := by
  have hleave : ∀ ctx', Context.InLimit { ctx with depth := ctx.depth + 1 } ctx' →
      ctx.InLimit ctx'.leave := by
    rintro ctx' ⟨hmax, hle⟩
    refine ⟨hmax, fun _ => ?_⟩
    have := hle hroom
    simp only [Context.leave]
    omega
  cases o with
  | exhausted => trivial
  | success ctx' => exact hleave ctx' h
  | failure e ctx' => exact ⟨hleave ctx' h.1, h.2⟩

/-- A script stays in the limit if what it asks for does. Its errors are those that it raises
itself and those that it is answered with. -/
theorem run_limited (hE : ∀ m, E m (.tooDeep m)) {code : Script α} {F : RenderError → Prop}
    (hask : code.AsksOnly reg fun t => (call t).Meets (.limited E)) (hraise : code.RaisesOnly F)
    {ctx : Context} (hF : ∀ e, F e → E ctx.maxDepth e) :
    Contract.limited E ctx ((Evaluation.run reg call code).ending ctx) := by
  rw [limited_eq_keeping] at hask ⊢
  exact run_keeping (kept_limited fun _ => hE) hask (code.requestsOnly_of_forall fun _ => trivial)
    hraise hF

/-- Every rendering stays in the limit. -/
theorem evaluate_limited (reg : Registry) (budget : Nat) (t : Task) :
    (evaluate reg budget t).Meets (.limited fun _ _ => True) :=
  Evaluation.meets_evaluate (T := fun _ => True) (stable_limited _) (fun _ => trivial)
    (fun ctx _ => ⟨.refl ctx, trivial⟩) (fun _ _ => limited_level) (fun _ _ _ _ => trivial)
    (fun _ _ _ _ => trivial) (fun _ _ _ _ ctx => ⟨.refl ctx, trivial⟩)
    (fun _ code _ hcall _ => run_limited (fun _ => trivial)
      (code.asksOnly_of_forall fun _ t _ => hcall t trivial)
      (code.raisesOnly_of_forall fun _ => trivial) fun _ _ => trivial)
    budget t trivial

end

/-! ## The room for further levels -/

/-- No more than `room` levels may still be entered at the end. Where the budget is used up, `E`
holds of the room. -/
def Ending.Within (E : Nat → Prop) (room : Nat) : Ending → Prop
  | exhausted => E room
  | success ctx => ctx.room ≤ room
  | failure _ ctx => ctx.room ≤ room

/-- The rendering gains no room. It uses up its budget only where `E` holds of the room. -/
def Contract.noGain (E : Nat → Prop) : Contract := fun ctx o => o.Within E ctx.room

section
variable {E : Nat → Prop} (hE : ∀ {m n}, m ≤ n → E m → E n)
include hE

theorem Ending.Within.mono {m n : Nat} {o : Ending} (h : o.Within E m) (hle : m ≤ n) :
    o.Within E n := by
  cases o with
  | exhausted => exact hE hle h
  | success | failure => exact Nat.le_trans h hle

theorem stable_noGain : (Contract.noGain E).Stable where
  refl _ := Nat.le_refl _
  next h h' := Ending.Within.mono hE h' h
  bind _ _ _ := Nat.le_refl _
  scope {ctx o} h := by
    have hclose : ∀ ctx' : Context, ctx'.closeScope.room = ctx'.room := by
      intro ctx'
      rw [Context.room, Context.closeScope_maxDepth, Context.closeScope_depth, Context.room]
    cases o with
    | exhausted => exact h
    | success ctx' => exact Nat.le_trans (Nat.le_of_eq (hclose ctx')) h
    | failure e ctx' => exact Nat.le_trans (Nat.le_of_eq (hclose ctx')) h

omit hE in
theorem room_leave_le (ctx : Context) : ctx.leave.room ≤ ctx.room + 1 := by
  simp only [Context.room, Context.leave]
  omega

omit hE in
/-- A level takes one from the room, and leaving it gives back no more than that. -/
theorem noGain_level {E' : Nat → Prop} {ctx : Context} {o : Ending}
    (hE' : E' (ctx.room - 1) → E ctx.room) (hroom : ctx.depth < ctx.maxDepth)
    (h : Contract.noGain E' { ctx with depth := ctx.depth + 1 } o) :
    Contract.noGain E ctx (o.map Context.leave) := by
  have hinside : Context.room { ctx with depth := ctx.depth + 1 } = ctx.room - 1 := by
    simp only [Context.room]
    omega
  have hpos : 0 < ctx.room := by
    simp only [Context.room]
    omega
  rw [Contract.noGain, hinside] at h
  have hleave : ∀ ctx' : Context, ctx'.room ≤ ctx.room - 1 → ctx'.leave.room ≤ ctx.room := by
    intro ctx' h
    have := room_leave_le ctx'
    omega
  cases o with
  | exhausted => exact hE' h
  | success ctx' => exact hleave ctx' h
  | failure e ctx' => exact hleave ctx' h

/-- A script that leaves only levels of its own gains no room if what it asks for does not. The
levels it has entered make up for those that it leaves. -/
theorem run_within {code : Script α} {k : Nat} (hleave : code.LeavesOwn k)
    (hask : code.AsksOnly reg fun t => (call t).Meets (.noGain E)) {ctx : Context} {room : Nat}
    (hroom : ctx.room + k ≤ room) : ((Evaluation.run reg call code).ending ctx).Within E room := by
  induction code generalizing k ctx with
  | done a => exact Nat.le_trans (Nat.le_add_right _ k) hroom
  | fail e => exact Nat.le_trans (Nat.le_add_right _ k) hroom
  | ask r next ih =>
    -- what is kept is that the room and the levels of the script's own are no more than `room`
    have hgo : ∀ a ctx', ctx'.room + r.levels k a ≤ room →
        ((Evaluation.run reg call (next a)).ending ctx').Within E room :=
      fun a ctx' h => ih a (hleave.2 a) (hask.2 a) h
    have hanswer := Evaluation.answered reg call ctx r
    change ((Evaluation.answer reg call r >>=
      fun a => Evaluation.run reg call (next a)).ending ctx).Within E room
    rw [ending_bind]
    generalize Evaluation.answer reg call r ctx = o at hanswer ⊢
    cases hanswer with
    | @exhausted _ t ht hcall =>
      have hmeets := hask.1 t ht ctx
      unfold ending at hmeets
      rw [hcall] at hmeets
      exact hE (by omega) hmeets
    | @asked _ t result a ctx' ht hcall _ hlevels =>
      have hmeets := hask.1 t ht ctx
      unfold ending at hmeets
      rw [hcall] at hmeets
      have hle : ctx'.room ≤ ctx.room := by
        cases result <;> exact hmeets
      refine hgo a ctx' ?_
      rw [hlevels]
      omega
    | @quiet _ a ctx' _ hlevels hmax hdepth =>
      refine hgo a ctx' ?_
      rw [hlevels, Context.room, hmax, hdepth]
      exact hroom
    | left =>
      have hk := hleave.1 rfl
      have := room_leave_le ctx
      refine hgo () _ ?_
      simp only [Request.levels]
      omega
    | entered hlt =>
      refine hgo _ _ ?_
      simp only [Context.room, Request.levels] at hroom ⊢
      omega
    | refused => exact hgo _ _ hroom

end

def Task.LeavesOwn : Task → Prop
  | script code => code.LeavesOwn 0
  | _ => True

/-- If the host leaves only levels that it has entered, no rendering gains room. -/
theorem evaluate_noGain (hreg : reg.LeavesOwn) (budget : Nat) {t : Task} (ht : t.LeavesOwn) :
    (evaluate reg budget t).Meets (.noGain fun _ => True) := by
  have hE : ∀ {m n : Nat}, m ≤ n → True → True := fun _ _ => trivial
  refine Evaluation.meets_evaluate (T := Task.LeavesOwn) (stable_noGain hE) (fun _ => trivial)
    (fun _ _ => Nat.le_refl _) (fun _ _ => noGain_level id) (fun _ _ _ _ => trivial)
    (fun _ _ _ hc => hc.ifScript hreg) (fun _ _ _ _ ctx => Nat.le_refl _)
    (fun call code hcode hcall ctx => ?_) budget t ht
  exact run_within hE hcode (code.asksOnly_of_forall fun _ t hr => hcall t (hr.ifScript hreg))
    (Nat.le_refl _)

end BraceTemplate
