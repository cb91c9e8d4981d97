import BraceTemplate.Proofs.Render.Termination

/-!
# Names that are not found

The evaluator looks up helpers, binders and partials by the names that nodes give, and a helper
stands in for the first two where there is one. So a rendering fails for a missing name only where
some node that it may come to has that name, and not at all where the names of all these nodes
are found.
-/

namespace BraceTemplate

/-! ## Names -/

namespace Node

def helperName? : Node → Option String
  | helper _ name _ _ _ _ _ => some name
  | _ => none

def binderName? : Node → Option String
  | binder name _ _ _ _ _ => some name
  | _ => none

variable {reg : Registry} {n : Node} {name : String}

/-- The node calls a helper or a binder that is not registered as such. -/
def LacksHelper (reg : Registry) (name : String) (n : Node) : Prop :=
  n.helperName? = some name ∧ Table.get? reg.helpers name = none ∨
    n.binderName? = some name ∧ Table.get? reg.binders name = none

/-- The names in the node are registered, or there is a helper that stands in for missing ones. -/
structure Resolves (reg : Registry) (n : Node) : Prop where
  helper : ∀ {name}, n.LacksHelper reg name → Table.get? reg.helpers Registry.fallback ≠ none
  registered : ∀ {name}, n.partialName? = some name → Table.get? reg.partials name ≠ none

theorem Misses.lacksHelper (h : n.Misses reg (.noHelper name)) :
    Table.get? reg.helpers Registry.fallback = none ∧ n.LacksHelper reg name := by
  cases h with
  | helper hget hfallback => exact ⟨hfallback, .inl ⟨rfl, hget⟩⟩
  | binder hget hfallback => exact ⟨hfallback, .inr ⟨rfl, hget⟩⟩

theorem Misses.lacksPartial (h : n.Misses reg (.noPartial name)) :
    Table.get? reg.partials name = none ∧ n.partialName? = some name := by
  cases h with
  | plainPartial hget | boundPartial hget => exact ⟨hget, rfl⟩

theorem Resolves.not_misses (h : n.Resolves reg) (e : RenderError) : ¬ n.Misses reg e := by
  intro hmiss
  cases e with
  | noHelper name => exact h.helper hmiss.lacksHelper.2 hmiss.lacksHelper.1
  | noPartial name => exact h.registered hmiss.lacksPartial.2 hmiss.lacksPartial.1
  | _ => cases hmiss

end Node

/-- The nodes that rendering the block may come to: its own, those of registered templates, and
those inside them. -/
inductive Registry.Reaches (reg : Registry) (b : Block) : Node → Prop
  | root {n : Node} : n ∈ b → Reaches reg b n
  | template {name : String} {root : Block} {n : Node} :
      Table.get? reg.partials name = some (.template root) → n ∈ root → Reaches reg b n
  | child {n m : Node} : Reaches reg b n → m ∈ n.children → Reaches reg b m

/-- What rendering may come to next, it may come to. -/
theorem Registry.Reaches.next {reg : Registry} {b : Block} {n m : Node}
    (hn : n.IsText ∨ reg.Reaches b n) (h : n.LeadsTo reg m) : reg.Reaches b m := by
  rcases hn with htext | hn
  · exact (htext.not_leadsTo h).elim
  · cases h with
    | child hm => exact .child hn hm
    | template _ hget hm => exact .template hget hm

/-! ## Errors -/

def RenderError.IsGaveUp (e : RenderError) : Prop := ∃ name reason, e = .gaveUp name reason

/-- A script renders what it is handed, or hands it on, and makes no error but that it gives up. -/
def Script.GivesUp (reg : Registry) (g : Givens) (code : Script String) : Prop :=
  code.HandsOn reg g ∧ code.RaisesOnly RenderError.IsGaveUp

/-- The errors of renderings with the depth limit `limit`. -/
def Registry.Explains (reg : Registry) (b : Block) (limit : Nat) (e : RenderError) : Prop :=
  e = .tooDeep limit ∨ e.IsGaveUp ∨ ∃ n, reg.Reaches b n ∧ n.Misses reg e

section
variable {reg : Registry} {b : Block}

/-- Every rendering that starts from the block ends in explained errors only. -/
theorem evaluate_explains (hreg : reg.EachScript (Script.GivesUp reg)) (budget : Nat) {t : Task}
    (ht : t.Of (reg.Reaches b)) : (evaluate reg budget t).Meets (.limited (reg.Explains b)) := by
  have hdeep : ∀ limit, reg.Explains b limit (.tooDeep limit) := fun _ => .inl rfl
  refine Evaluation.meets_evaluate
    (T := Task.Within (Script.GivesUp reg) (Task.Of fun n => n.IsText ∨ reg.Reaches b n))
    (stable_limited _) (fun _ => trivial) (fun ctx _ => ⟨.refl ctx, hdeep _⟩)
    (fun _ _ => limited_level) (fun b hb n hn => ?_) (fun n hn t hc => ?_)
    (fun n hn e hmiss ctx => ⟨.refl ctx, ?_⟩) (fun call code hcode hcall ctx => ?_) budget t
    (.part (ht.imp fun _ => .inr))
  · cases hb with
    | part hb => exact .part (hb n hn)
  · cases hn with
    | part hn => exact hc.within hreg fun m => Registry.Reaches.next hn
  · cases hn with
    | part hn =>
      rcases hn with htext | hreach
      · cases hmiss <;> exact htext.elim
      · exact .inr (.inr ⟨n, hreach, hmiss⟩)
  · obtain ⟨⟨g, -, hraises⟩, hasks⟩ := hcode.handsOn hreg fun h => h.1
    exact run_limited hdeep (hasks.imp hcall) hraises fun e he => .inr (.inl he)

end

/-- What a rendering of the block says of missing names is true, and it says nothing of them where
all names resolve. -/
structure Rendering.LooksUp (reg : Registry) (b : Block) (p : Rendering String) : Prop where
  resolved : (∀ n, reg.Reaches b n → n.Resolves reg) → ∀ ctx result ctx',
    p ctx = some (result, ctx') →
      (∃ out, result = .ok out) ∨ result = .error (.tooDeep ctx.maxDepth) ∨
        ∃ name reason, result = .error (.gaveUp name reason)
  noHelper : ∀ ctx name ctx', p ctx = some (.error (.noHelper name), ctx') →
    Table.get? reg.helpers Registry.fallback = none ∧
      ∃ n, reg.Reaches b n ∧ n.LacksHelper reg name
  noPartial : ∀ ctx name ctx', p ctx = some (.error (.noPartial name), ctx') →
    Table.get? reg.partials name = none ∧ ∃ n, reg.Reaches b n ∧ n.partialName? = some name
  noTemplate : ∀ ctx error ctx', p ctx ≠ some (.error (.noTemplate error), ctx')

theorem Rendering.Meets.looksUp {reg : Registry} {b : Block} {p : Rendering String}
    (h : p.Meets (.limited (reg.Explains b))) : p.LooksUp reg b := by
  have herror : ∀ {ctx e ctx'}, p ctx = some (.error e, ctx') → reg.Explains b ctx.maxDepth e := by
    intro ctx e ctx' hp
    have hend := h ctx
    unfold ending at hend
    rw [hp] at hend
    exact hend.2
  refine ⟨fun hresolve ctx result ctx' hp => ?_, fun ctx name ctx' hp => ?_,
    fun ctx name ctx' hp => ?_, fun ctx error ctx' hp => ?_⟩
  · cases result with
    | ok out => exact .inl ⟨out, rfl⟩
    | error e =>
      refine .inr ?_
      rcases herror hp with rfl | ⟨name, reason, rfl⟩ | ⟨n, hreach, hmiss⟩
      · exact .inl rfl
      · exact .inr ⟨name, reason, rfl⟩
      · exact ((hresolve n hreach).not_misses e hmiss).elim
  · rcases herror hp with he | ⟨_, _, he⟩ | ⟨n, hreach, hmiss⟩
    · cases he
    · cases he
    · exact ⟨hmiss.lacksHelper.1, n, hreach, hmiss.lacksHelper.2⟩
  · rcases herror hp with he | ⟨_, _, he⟩ | ⟨n, hreach, hmiss⟩
    · cases he
    · cases he
    · exact ⟨hmiss.lacksPartial.1, n, hreach, hmiss.lacksPartial.2⟩
  · rcases herror hp with he | ⟨_, _, he⟩ | ⟨n, hreach, hmiss⟩
    · cases he
    · cases he
    · cases hmiss

/-- Where the host renders what it is handed, or hands it on, and makes no errors but that a helper
gives up, names that resolve are found, and the error that one is missing is true of some node. If
the host also leaves only levels of its own, and no more than so many helpers call each other, there
is a result. -/
theorem render_looksUp {reg : Registry} (hreg : reg.EachScript (Script.GivesUp reg)) :
    (∀ b : Block, (b.render reg).LooksUp reg b) ∧ (∀ n : Node, (n.render reg).LooksUp reg [n]) ∧
    (∀ k, reg.EachScript (Script.RendersHanded reg k) → ∀ ctx,
      (∀ b : Block, b.calls reg k ctx ≤ openCalls →
        ∃ result ctx', b.render reg ctx = some (result, ctx')) ∧
      (∀ n : Node, n.calls reg k ctx ≤ openCalls →
        ∃ result ctx', n.render reg ctx = some (result, ctx'))) := by
  have hblock : ∀ b : Block, (Task.block b).Of (reg.Reaches b) := fun b n hn => .root hn
  have hnode : ∀ n : Node, (Task.node n).Of (reg.Reaches [n]) := fun n => .root (by simp)
  refine ⟨fun b => (evaluate_explains hreg _ (hblock b)).looksUp,
    fun n => (evaluate_explains hreg _ (hnode n)).looksUp, fun k hends ctx => ?_⟩
  exact ⟨fun b => (block_ends hends ctx b).returns, fun n => (node_ends hends ctx n).returns⟩

theorem givesUp_letHost : letHost.EachScript (Script.GivesUp letHost) :=
  eachScript_letHost (fun _ _ _ => ⟨handsOn_letHelper _ _ _ _, raisesOnly_letHelper _ _ _ _⟩)
    ⟨⟨nofun, fun _ => trivial⟩, fun _ => trivial⟩

theorem rendersHanded_letHost : letHost.EachScript (Script.RendersHanded letHost 0) :=
  eachScript_letHost (rendersHanded_letHelper _)
    ⟨⟨nofun, fun _ => trivial⟩, ⟨nofun, fun _ => trivial⟩, ⟨by simp, fun _ => trivial⟩⟩

section
variable {reg : Registry} {name : String}

theorem resolves_helper (h : Table.get? reg.helpers name ≠ none) (output : Output)
    (params : List Param) (body otherwise : Option Block) (trim : Trim)
    (marks : Option TrimMarks) :
    (Node.helper output name params body otherwise trim marks).Resolves reg where
  helper hlacks := by
    rcases hlacks with ⟨hname, hget⟩ | ⟨hname, -⟩ <;> cases hname
    exact (h hget).elim
  registered hname := by cases hname

theorem resolves_boundPartial (h : Table.get? reg.partials name ≠ none) (args : List Argument)
    (trim : Trim) : (Node.boundPartial name args trim).Resolves reg where
  helper hlacks := by rcases hlacks with ⟨hname, -⟩ | ⟨hname, -⟩ <;> cases hname
  registered hname := by
    cases hname
    exact h

end

theorem reaches_letNode {n : Node} (h : letHost.Reaches [letNode] n) :
    n = letNode ∨ ∃ name key, (name = "p" ∨ name = "q") ∧
      n = .boundPartial name [.mk key (.path "x")] .none := by
  induction h with
  | root hn => exact .inl (List.mem_singleton.1 hn)
  | template hget hn =>
    simp only [letHost, Table.get?] at hget
    split at hget
    · cases hget
      exact .inr ⟨"q", "k", .inr rfl, List.mem_singleton.1 hn⟩
    · split at hget <;> cases hget
  | child _ hm ih =>
    rcases ih with rfl | ⟨name, key, -, rfl⟩
    · exact .inr ⟨"p", "a", .inl rfl, List.mem_singleton.1 hm⟩
    · cases hm

theorem resolves_letNode (n : Node) (h : letHost.Reaches [letNode] n) : n.Resolves letHost := by
  have hlet : Table.get? letHost.helpers "let" ≠ none := Option.some_ne_none _
  have hp : Table.get? letHost.partials "p" ≠ none := Option.some_ne_none _
  have hq : Table.get? letHost.partials "q" ≠ none := Option.some_ne_none _
  rcases reaches_letNode h with rfl | ⟨name, key, rfl | rfl, rfl⟩
  · exact resolves_helper hlet _ _ _ _ _ _
  · exact resolves_boundPartial hp _ _
  · exact resolves_boundPartial hq _ _

theorem render_looksUp_letHost :
    letHost.EachScript (Script.GivesUp letHost) ∧
      (∀ n, letHost.Reaches [letNode] n → n.Resolves letHost) ∧
      (∃ result ctx, Block.render letHost [letNode] {} = some (result, ctx) ∧
        ((∃ out, result = .ok out) ∨ result = .error (.tooDeep 64) ∨
          ∃ name reason, result = .error (.gaveUp name reason))) ∧
      ∃ n, letHost.Reaches [.helper .raw "no" [] none none .none none] n ∧
        n.LacksHelper letHost "no" := by
  obtain ⟨hblock, -, hreturns⟩ := render_looksUp givesUp_letHost
  refine ⟨givesUp_letHost, resolves_letNode, ?_, ?_⟩
  · obtain ⟨result, ctx, h⟩ := (hreturns 0 rendersHanded_letHost {}).1 [letNode] (by decide)
    exact ⟨result, ctx, h, (hblock _).resolved resolves_letNode _ _ _ h⟩
  · exact ((hblock [.helper .raw "no" [] none none .none none]).noHelper {} "no" {} rfl).2

end BraceTemplate
