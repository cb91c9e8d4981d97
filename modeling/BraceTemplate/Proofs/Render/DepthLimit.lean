import BraceTemplate.Proofs.Render.Lockstep

/-!
# The depth limit only cuts off

Two renderings that start alike but for their limits run in step until the one with the smaller
limit is refused a level that the other may enter. A host that passes on that error, and makes none
like it, cannot make anything of it, so the rendering ends there.
-/

namespace BraceTemplate

def RenderError.IsTooDeep (e : RenderError) : Prop := ∃ limit, e = .tooDeep limit

def Context.withLimit (ctx : Context) (m : Nat) : Context := { ctx with maxDepth := m }

/-- Starting alike, a rendering ends under the limit `m` as under `n`, but for the limit, unless
`n` cuts it off. If `m` does, so does `n`. -/
def Rendering.OnlyCutOff {α : Type} (n m : Nat) (p : Rendering α) : Prop :=
  ∀ ctx : Context, ctx.maxDepth = n →
    ((∀ limit ctx', p ctx ≠ some (.error (.tooDeep limit), ctx')) →
      p (ctx.withLimit m) = (p ctx).map fun x => (x.1, x.2.withLimit m)) ∧
    ∀ limit ctx', p (ctx.withLimit m) = some (.error (.tooDeep limit), ctx') →
      ∃ ctx'', p ctx = some (.error (.tooDeep n), ctx'')

/-- Contexts that differ in their limits only. The run with the limit `n` may be cut off early. -/
def Simulation.limits (n m : Nat) : Simulation where
  Related ctx ctx' := ctx.maxDepth = n ∧ ctx' = ctx.withLimit m
  spends := False
  cuts e := e = .tooDeep n
  bars := RenderError.IsTooDeep

theorem steady_limits {n m : Nat} (hle : n ≤ m) : (Simulation.limits n m).Steady where
  get := by rintro ctx _ ⟨-, rfl⟩ path; rfl
  scoping := by rintro ctx _ ⟨-, rfl⟩; rfl
  bind := by rintro ctx _ ⟨hn, rfl⟩ key v; exact ⟨hn, rfl⟩
  openScope := by rintro ctx _ ⟨hn, rfl⟩; exact ⟨hn, rfl⟩
  closeScope := by
    rintro ⟨data, limit, scoping, innermost, outer, depth⟩ _ ⟨hn, rfl⟩
    cases outer <;> exact ⟨hn, rfl⟩
  leave := by rintro ctx _ ⟨hn, rfl⟩; exact ⟨hn, rfl⟩
  enter := by
    rintro ctx _ ⟨hn, rfl⟩
    unfold Rendering.enter Context.enter
    by_cases hdeep : n ≤ ctx.depth
    · rw [if_pos (hn ▸ hdeep)]
      exact .cut (congrArg RenderError.tooDeep hn)
    · rw [if_neg (hn ▸ hdeep), if_neg (by simp only [Context.withLimit]; omega)]
      exact .together ⟨hn, rfl⟩ fun _ he => by cases he
  bars_of_cuts he := ⟨_, he⟩
  noHelper _ := by rintro ⟨_, h⟩; cases h
  noPartial _ := by rintro ⟨_, h⟩; cases h

theorem Rendering.Follows.onlyCutOff {α : Type} {n m : Nat} {p : Rendering α}
    (h : p.Follows (Simulation.limits n m) p) : p.OnlyCutOff n m := by
  intro ctx hn
  have hends := h ctx _ ⟨hn, rfl⟩
  generalize p ctx = x, p (ctx.withLimit m) = y at hends ⊢
  cases hends with
  | exhausted => exact ⟨fun _ => rfl, fun _ _ hy => by cases hy⟩
  | @together r ctx₁ _ hr hbar =>
    obtain ⟨-, rfl⟩ := hr
    refine ⟨fun _ => rfl, fun limit _ hy => ?_⟩
    cases hy
    exact (hbar _ rfl ⟨limit, rfl⟩).elim
  | spent hs => exact hs.elim
  | @cut e ctx₁ _ hcut =>
    obtain rfl : e = .tooDeep n := hcut
    exact ⟨fun hx => (hx n ctx₁ rfl).elim, fun _ _ _ => ⟨ctx₁, rfl⟩⟩

/-- Where the host passes on the errors that a limit is exceeded, and makes none of its own, raising
the limit changes no rendering but those that the lower limit cuts off. -/
theorem render_onlyCutOff {reg : Registry}
    (hreg : reg.EachScript fun _ code => code.Yields RenderError.IsTooDeep) {n m : Nat}
    (hle : n ≤ m) :
    (∀ b : Block, (b.render reg).OnlyCutOff n m) ∧ (∀ x : Node, (x.render reg).OnlyCutOff n m) ∧
    (∀ p : Param, (p.evaluate reg).OnlyCutOff n m) ∧
    (∀ p : Param, (p.render reg).OnlyCutOff n m) := by
  have hσ := steady_limits hle
  have hall := Evaluation.follows_evaluate hσ hreg (Nat.le_refl openCalls) (.inl rfl)
  exact ⟨fun b => (hall (.block b) trivial).onlyCutOff,
    fun x => (hall (.node x) trivial).onlyCutOff,
    fun p => (Evaluation.follows_value hσ hall p).onlyCutOff,
    fun p => (Evaluation.follows_text hσ hall p).onlyCutOff⟩

/-- Nothing has to be passed on after a request that no error answers. -/
theorem Script.yields_ask {α : Type} {B : RenderError → Prop} {r : Request}
    {next : r.Answer → Script α} (hr : ∀ a, r.error? a = none) (h : ∀ a, (next a).Yields B) :
    (ask r next).Yields B :=
  fun a => ⟨fun e he => (by rw [hr a] at he; cases he), fun _ => h a⟩

theorem yields_letHost (B : RenderError → Prop) :
    letHost.EachScript fun _ code => code.Yields B := by
  refine eachScript_letHost (fun params body otherwise => ?_)
    (Script.yields_ask (fun _ => rfl) fun _ => trivial)
  cases body with
  | none =>
    rw [letHelper_none]
    exact Script.yields_ask (fun _ => rfl) fun _ => Script.yields_ask (fun _ => rfl) fun _ =>
      Script.yields_ask (fun _ => rfl) fun _ => trivial
  | some b =>
    rw [letHelper_some]
    refine Script.yields_ask (fun _ => rfl) fun _ => Script.yields_ask (fun _ => rfl) fun _ => ?_
    rintro (e | out)
    · refine ⟨fun e' he _ => ⟨trivial, fun _ => ?_⟩, fun h => ?_⟩
      · cases he
        rfl
      · exact Script.yields_ask (fun _ => rfl) fun _ => h e rfl
    · exact ⟨fun _ he => (by cases he), fun _ => Script.yields_ask (fun _ => rfl) fun _ => trivial⟩

theorem render_onlyCutOff_letHost :
    (letHost.EachScript fun _ code => code.Yields RenderError.IsTooDeep) ∧
      Block.render letHost [letNode] { maxDepth := 64 } = some (.ok "1", { maxDepth := 64 }) ∧
      ∃ ctx, Block.render letHost [letNode] { maxDepth := 1 } =
        some (.error (.tooDeep 1), ctx) := by
  have hreg := yields_letHost RenderError.IsTooDeep
  have hthree : Block.render letHost [letNode] { maxDepth := 3 } =
      some (.ok "1", { maxDepth := 3 }) := rfl
  have htwo : Block.render letHost [letNode] { maxDepth := 2 } =
      some (.error (.tooDeep 2), { maxDepth := 2 }) := rfl
  refine ⟨hreg, ?_, ?_⟩
  · have hsame := ((render_onlyCutOff hreg (n := 3) (m := 64) (by decide)).1 [letNode] _ rfl).1
      fun _ _ h => by rw [hthree] at h; cases h
    rw [hthree] at hsame
    exact hsame
  · exact ((render_onlyCutOff hreg (n := 1) (m := 2) (by decide)).1 [letNode] { maxDepth := 1 }
      rfl).2 2 _ htwo

/-- A host with a helper that enters a level only to see whether it may. -/
def probeHost : Registry where
  helpers := [("h", fun _ _ _ => .ask .enter fun
    | .ok () => .ask .leave fun _ => .done "y"
    | .error _ => .done "x")]

/-- Such a helper has nothing rendered and makes no error, and yet the limit shows in what it
gives. -/
theorem render_onlyCutOff_probeHost :
    (probeHost.EachScript fun _ code =>
      code.AsksOnly probeHost (fun _ => False) ∧ code.RaisesOnly fun _ => False) ∧
      Block.render probeHost [.reference .escaped "h" .none] { maxDepth := 1 } =
        some (.ok "x", { maxDepth := 1 }) ∧
      Block.render probeHost [.reference .escaped "h" .none] { maxDepth := 2 } =
        some (.ok "y", { maxDepth := 2 }) ∧
      ¬ (Block.render probeHost [.reference .escaped "h" .none]).OnlyCutOff 1 2 := by
  have hone : Block.render probeHost [.reference .escaped "h" .none] { maxDepth := 1 } =
      some (.ok "x", { maxDepth := 1 }) := rfl
  have htwo : Block.render probeHost [.reference .escaped "h" .none] { maxDepth := 2 } =
      some (.ok "y", { maxDepth := 2 }) := rfl
  refine ⟨⟨fun hget _ _ _ => ?_, fun hget => (by cases hget), fun hget => (by cases hget)⟩, hone,
    htwo, fun hcut => ?_⟩
  · simp only [probeHost, Table.get?] at hget
    split at hget <;> cases hget
    refine ⟨⟨fun _ h => (by cases h), ?_⟩, ?_⟩
    · rintro (e | ⟨⟩)
      · trivial
      · exact Script.asksOnly_quiet trivial fun _ => trivial
    · rintro (e | ⟨⟩)
      · trivial
      · exact fun _ => trivial
  · have hsame := (hcut { maxDepth := 1 } rfl).1 fun _ _ h => by rw [hone] at h; cases h
    rw [hone] at hsame
    exact absurd (htwo.symm.trans hsame) (by simp)

end BraceTemplate
