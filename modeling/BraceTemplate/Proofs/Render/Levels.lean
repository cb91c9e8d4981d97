import BraceTemplate.Proofs.Render.DepthLimit
import BraceTemplate.Proofs.Render.Lookup
import Mathlib.Data.Set.Finite.Basic
import Mathlib.Order.WellFoundedSet

/-!
# The levels that a template takes

How many levels of depth a block takes can be read off its tree and the trees of the partials that
it includes, as long as these do not include each other in a circle: then there is one way to give
each name its levels (`Registry.Acyclic.existsUnique_levels`). A host that renders what it is given,
each part as it is, and does not count levels itself cannot take more of them (`evaluate_inRoom`),
so where there is room for so many, the depth limit cuts off no rendering.
-/

namespace BraceTemplate

/-! ## Levels of trees -/

mutual

/-- The levels that are taken to render a node, where those of the partials are given by name. The
arguments of a plain partial are not looked at. -/
def Node.levels (D : String → Nat) : Node → Nat
  | .content _ | .literal _ | .reference _ _ _ => 0
  | .helper _ _ params body otherwise _ _ =>
    max (levelsParams D params) (max (levelsBody D body) (levelsBody D otherwise))
  | .binder _ params _ body otherwise _ =>
    max (levelsParams D params) (max (levelsItems D body + 1) (levelsBody D otherwise))
  | .plainPartial name _ _ => D name
  | .boundPartial name args _ => max (D name) (levelsArguments D args)
  | .block b => levelsItems D b + 1

def Param.levels (D : String → Nat) : Param → Nat
  | .path _ => 0
  | .node n => n.levels D

def levelsParams (D : String → Nat) : List Param → Nat
  | [] => 0
  | p :: params => max (p.levels D) (levelsParams D params)

def levelsArguments (D : String → Nat) : List Argument → Nat
  | [] => 0
  | .mk _ value :: args => max (value.levels D) (levelsArguments D args)

def levelsBody (D : String → Nat) : Option (List Node) → Nat
  | none => 0
  | some b => levelsItems D b + 1

def levelsItems (D : String → Nat) : List Node → Nat
  | [] => 0
  | n :: b => max (n.levels D) (levelsItems D b)

end

/-- The levels that are taken to render a block: one more than for its nodes. -/
def levelsBlock (D : String → Nat) (b : Block) : Nat := levelsItems D b + 1

section
variable {D : String → Nat} {n : Node}

theorem levels_le_levelsItems {b : Block} (h : n ∈ b) : n.levels D ≤ levelsItems D b := by
  induction b with
  | nil => cases h
  | cons m b ih =>
    rw [levelsItems]
    rcases List.mem_cons.1 h with rfl | h
    · exact Nat.le_max_left _ _
    · exact Nat.le_trans (ih h) (Nat.le_max_right _ _)

theorem levels_le_levelsParams {params : List Param} (h : .node n ∈ params) :
    n.levels D ≤ levelsParams D params := by
  induction params with
  | nil => cases h
  | cons p params ih =>
    rw [levelsParams]
    rcases List.mem_cons.1 h with rfl | h
    · rw [Param.levels]
      exact Nat.le_max_left _ _
    · exact Nat.le_trans (ih h) (Nat.le_max_right _ _)

theorem levels_le_levelsArguments {key : String} {args : List Argument}
    (h : .mk key (.node n) ∈ args) : n.levels D ≤ levelsArguments D args := by
  induction args with
  | nil => cases h
  | cons a args ih =>
    obtain ⟨key', value⟩ := a
    rw [levelsArguments]
    rcases List.mem_cons.1 h with heq | h
    · cases heq
      rw [Param.levels]
      exact Nat.le_max_left _ _
    · exact Nat.le_trans (ih h) (Nat.le_max_right _ _)

end

/-! ## Inclusion -/

/-- The node, or one inside it, is a partial of the name. -/
inductive Node.Includes : Node → String → Prop
  | here {n : Node} {name : String} : n.partialName? = some name → Includes n name
  | child {n m : Node} {name : String} : m ∈ n.children → Includes m name → Includes n name

section
variable {D D' : String → Nat}

/-- The levels of a list are a matter of those of its nodes. -/
theorem levelsItems_congr {b : Block} (h : ∀ n ∈ b, n.levels D = n.levels D') :
    levelsItems D b = levelsItems D' b := by
  induction b with
  | nil => rfl
  | cons n b ih =>
    rw [levelsItems, levelsItems, h n (by simp), ih fun m hm => h m (by simp [hm])]

theorem levelsBody_congr {body : Option Block}
    (h : ∀ n ∈ body.getD [], n.levels D = n.levels D') :
    levelsBody D body = levelsBody D' body := by
  cases body with
  | none => rfl
  | some b => exact congrArg (· + 1) (levelsItems_congr h)

theorem levelsParams_congr {params : List Param}
    (h : ∀ n, .node n ∈ params → n.levels D = n.levels D') :
    levelsParams D params = levelsParams D' params := by
  induction params with
  | nil => rfl
  | cons p params ih =>
    rw [levelsParams, levelsParams, ih fun n hn => h n (by simp [hn])]
    cases p with
    | path => rfl
    | node n => rw [Param.levels, Param.levels, h n (by simp)]

theorem levelsArguments_congr {args : List Argument}
    (h : ∀ key n, .mk key (.node n) ∈ args → n.levels D = n.levels D') :
    levelsArguments D args = levelsArguments D' args := by
  induction args with
  | nil => rfl
  | cons a args ih =>
    obtain ⟨key, value⟩ := a
    rw [levelsArguments, levelsArguments, ih fun k n hn => h k n (by simp [hn])]
    cases value with
    | path => rfl
    | node n => rw [Param.levels, Param.levels, h key n (by simp)]

/-- The levels of a node are a matter of those of the names that it includes. -/
theorem Node.levels_congr {n : Node} (h : ∀ name, n.Includes name → D name = D' name) :
    n.levels D = n.levels D' := by
  induction n using Node.child_induction with
  | _ n ih =>
    have hchild : ∀ m ∈ n.children, m.levels D = m.levels D' := fun m hm =>
      ih m hm fun name hname => h name (.child hm hname)
    cases n with
    | content | literal | reference => rfl
    | helper output name params body otherwise trim marks =>
      have hparam : ∀ m, .node m ∈ params → m.levels D = m.levels D' := fun m hm =>
        hchild m (List.mem_append_left _ (mem_filterMap_node?.2 hm))
      have hbody : ∀ m ∈ body.getD [], m.levels D = m.levels D' := fun m hm =>
        hchild m (List.mem_append_right _ (List.mem_append_left _ hm))
      have hother : ∀ m ∈ otherwise.getD [], m.levels D = m.levels D' := fun m hm =>
        hchild m (List.mem_append_right _ (List.mem_append_right _ hm))
      rw [levels, levels, levelsParams_congr hparam, levelsBody_congr hbody,
        levelsBody_congr hother]
    | binder name params names body otherwise marks =>
      have hparam : ∀ m, .node m ∈ params → m.levels D = m.levels D' := fun m hm =>
        hchild m (List.mem_append_left _ (mem_filterMap_node?.2 hm))
      have hbody : ∀ m ∈ body, m.levels D = m.levels D' := fun m hm =>
        hchild m (List.mem_append_right _ (List.mem_append_left _ hm))
      have hother : ∀ m ∈ otherwise.getD [], m.levels D = m.levels D' := fun m hm =>
        hchild m (List.mem_append_right _ (List.mem_append_right _ hm))
      rw [levels, levels, levelsParams_congr hparam, levelsItems_congr hbody,
        levelsBody_congr hother]
    | plainPartial name args trim => exact h name (.here rfl)
    | boundPartial name args trim =>
      have hargs : ∀ key m, .mk key (.node m) ∈ args → m.levels D = m.levels D' := fun key m hm =>
        hchild m (List.mem_filterMap.2 ⟨_, hm, rfl⟩)
      rw [levels, levels, h name (.here rfl), levelsArguments_congr hargs]
    | block b => exact congrArg (· + 1) (levelsItems_congr hchild)

end

namespace Registry

variable {reg : Registry} {D D' : String → Nat}

def Includes (reg : Registry) (outer inner : String) : Prop :=
  ∃ root, Table.get? reg.partials outer = some (.template root) ∧ ∃ n ∈ root, n.Includes inner

/-- No template includes itself, directly or through others. -/
def Acyclic (reg : Registry) : Prop := ∀ name, ¬ Relation.TransGen reg.Includes name name

/-- The levels that are taken to render a partial. A script has none of its own. -/
def levelsOf (reg : Registry) (D : String → Nat) (name : String) : Nat :=
  match Table.get? reg.partials name with
  | some (.template root) => levelsBlock D root
  | _ => 0

/-- Each name is given the levels that are taken to render the partial. -/
def HasLevels (reg : Registry) (D : String → Nat) : Prop := ∀ name, D name = reg.levelsOf D name

theorem levelsOf_congr {name : String} (h : ∀ inner, reg.Includes name inner → D inner = D' inner) :
    reg.levelsOf D name = reg.levelsOf D' name := by
  unfold levelsOf
  split
  · rename_i root hget
    exact congrArg (· + 1) (levelsItems_congr fun n hn =>
      Node.levels_congr fun inner hinner => h inner ⟨root, hget, n, hn, hinner⟩)
  · rfl

theorem finite_partials (reg : Registry) : {name | Table.get? reg.partials name ≠ none}.Finite := by
  refine (reg.partials.map Prod.fst).finite_toSet.subset fun name hname => ?_
  change Table.get? reg.partials name ≠ none at hname
  change name ∈ reg.partials.map Prod.fst
  generalize reg.partials = entries at hname ⊢
  induction entries with
  | nil => exact (hname rfl).elim
  | cons entry entries ih =>
    rw [Table.get?] at hname
    split at hname
    · rename_i heq
      exact List.mem_map.2 ⟨entry, by simp, heq⟩
    · exact List.mem_cons_of_mem _ (ih hname)

/-- From each name, inclusion ends after finitely many steps: there are finitely many templates, and
none comes twice. -/
theorem Acyclic.wellFounded (h : reg.Acyclic) :
    WellFounded fun inner outer => reg.Includes outer inner := by
  have hstrict : IsStrictOrder String fun inner outer =>
      Relation.TransGen reg.Includes outer inner :=
    { irrefl := h, trans := fun _ _ _ hab hbc => hbc.trans hab }
  have hwf : Set.WellFoundedOn {name | Table.get? reg.partials name ≠ none} fun inner outer =>
      Relation.TransGen reg.Includes outer inner := reg.finite_partials.wellFoundedOn
  have hleaf : ∀ name, Table.get? reg.partials name = none →
      Acc (fun inner outer => reg.Includes outer inner) name := by
    refine fun name hnone => ⟨_, ?_⟩
    rintro inner ⟨root, hget, -⟩
    rw [hnone] at hget
    cases hget
  refine ⟨fun name => ?_⟩
  by_cases hname : Table.get? reg.partials name = none
  · exact hleaf name hname
  · refine hwf.induction hname fun outer _ ih => ⟨_, fun inner hinner => ?_⟩
    by_cases hnone : Table.get? reg.partials inner = none
    · exact hleaf inner hnone
    · exact ih inner hnone (.single hinner)

open Classical in
/-- The levels of each name, from those of the names that it includes. -/
noncomputable def Acyclic.levels (h : reg.Acyclic) : String → Nat :=
  h.wellFounded.fix fun name ih =>
    reg.levelsOf (fun inner => if hinner : reg.Includes name inner then ih inner hinner else 0) name

theorem Acyclic.hasLevels (h : reg.Acyclic) : reg.HasLevels h.levels := by
  intro name
  unfold levels
  rw [WellFounded.fix_eq]
  exact levelsOf_congr fun inner hinner => dif_pos hinner

/-- There is one way to give each name its levels. -/
theorem Acyclic.existsUnique_levels (h : reg.Acyclic) : ∃! D, reg.HasLevels D := by
  refine ⟨h.levels, h.hasLevels, fun D hD => funext fun name => ?_⟩
  induction name using h.wellFounded.induction with
  | _ name ih =>
    rw [hD name, h.hasLevels name]
    exact levelsOf_congr ih

end Registry

/-! ## Renderings within their levels -/

def Request.CountsNothing (r : Request) : Prop := r ≠ .enter ∧ r ≠ .leave

/-- A script renders the parts of what it is given, each as it is, or passes them on to other
helpers. It does not count levels, and makes no error that there are too many. -/
structure Script.CarriesOut (reg : Registry) (g : Givens) (code : Script String) : Prop where
  asks : code.AsksOnly reg (PassedOn reg g.Part)
  requests : code.RequestsOnly Request.CountsNothing
  raises : code.RaisesOnly fun e => ¬ e.IsTooDeep

def Registry.RendersGiven (reg : Registry) : Prop := reg.EachScript (Script.CarriesOut reg)

def Context.SameDepth (ctx ctx' : Context) : Prop :=
  ctx'.maxDepth = ctx.maxDepth ∧ ctx'.depth = ctx.depth

/-- The depth is as before, and where there was room for `d` levels, there were not too many. -/
def Contract.inRoom (d : Nat) : Contract :=
  .keeping Context.SameDepth fun ctx e => ctx.depth + d ≤ ctx.maxDepth → ¬ e.IsTooDeep

theorem kept_inRoom (d : Nat) : Contract.Kept Request.CountsNothing Context.SameDepth
    fun ctx e => ctx.depth + d ≤ ctx.maxDepth → ¬ e.IsTooDeep where
  trans h h' := ⟨h'.1.trans h.1, h'.2.trans h.2⟩
  error h := by rw [h.1, h.2]
  quiet hmax hdepth := ⟨hmax, hdepth⟩
  leave hp := (hp.2 rfl).elim
  enter hp := (hp.1 rfl).elim
  deep hp := (hp.1 rfl).elim

theorem stable_inRoom (d : Nat) : (Contract.inRoom d).Stable := stable_keeping (kept_inRoom d)

/-- Where there is room for a block, there is room for its nodes one level further inside. -/
theorem inRoom_level {d : Nat} {ctx : Context} {o : Ending}
    (h : Contract.inRoom d { ctx with depth := ctx.depth + 1 } o) :
    Contract.inRoom (d + 1) ctx (o.map Context.leave) := by
  have hleave : ∀ ctx', Context.SameDepth { ctx with depth := ctx.depth + 1 } ctx' →
      ctx.SameDepth ctx'.leave := fun ctx' hs => ⟨hs.1, congrArg (· - 1) hs.2⟩
  cases o with
  | exhausted => trivial
  | success ctx' => exact hleave ctx' h
  | failure e ctx' =>
    refine ⟨hleave ctx' h.1, fun hroom => h.2 ?_⟩
    simp only
    omega

/-- The task is to render a node or a block that takes at most `d` levels. -/
def Task.Takes (D : String → Nat) (d : Nat) : Task → Prop
  | block b => levelsBlock D b ≤ d
  | node n => n.levels D ≤ d
  | script _ => False

theorem Node.IsText.levels {D : String → Nat} {n : Node} (h : n.IsText) : n.levels D = 0 := by
  cases n with
  | content | literal => rfl
  | _ => exact h.elim

section
variable {reg : Registry} {D : String → Nat} {d : Nat}

theorem Givens.takes {g : Givens} (hparams : levelsParams D g.params ≤ d)
    (hbody : levelsBody D g.body ≤ d) (hother : levelsBody D g.otherwise ≤ d) (t : Task)
    (ht : g.Part t) : t.Takes D d := by
  cases ht with
  | param hn => exact Nat.le_trans (levels_le_levelsParams hn) hparams
  | text hn =>
    rw [Task.Takes, hn.levels]
    exact Nat.zero_le d
  | body hb =>
    rw [hb] at hbody
    exact hbody
  | otherwise hb =>
    rw [hb] at hother
    exact hother

variable (hreg : reg.RendersGiven) (hD : reg.HasLevels D)
include hreg hD

theorem takes_partial {name : String} {p : Partial} (hget : Table.get? reg.partials name = some p)
    (hle : D name ≤ d) : p.task.Within (Script.CarriesOut reg) (Task.Takes D d) := by
  cases p with
  | template root =>
    rw [hD name, Registry.levelsOf, hget] at hle
    exact .part hle
  | script code =>
    exact .script (hreg.registered hget)
      (Givens.takes (Nat.zero_le d) (Nat.zero_le d) (Nat.zero_le d))

/-- What a node calls takes no more levels than the node. -/
theorem Node.Calls.takes {n : Node} {t : Task} (hc : n.Calls reg t) (hn : n.levels D ≤ d) :
    t.Within (Script.CarriesOut reg) (Task.Takes D d) := by
  cases hc with
  | reference hget =>
    exact .script (hreg.helper hget _ _ _)
      (Givens.takes (Nat.zero_le d) (Nat.zero_le d) (Nat.zero_le d))
  | helper hget =>
    simp only [Node.levels, max_le_iff] at hn
    exact .script (hreg.helper hget _ _ _) (Givens.takes hn.1 hn.2.1 hn.2.2)
  | binder hget =>
    simp only [Node.levels, max_le_iff] at hn
    exact .script (hreg.binder hget _ _ _ _) (Givens.takes hn.1 hn.2.1 hn.2.2)
  | helperFallback hget | binderFallback hget =>
    -- the name is handed as text
    exact .script (hreg.helper hget _ _ _)
      (Givens.takes (Nat.zero_le d) (Nat.zero_le d) (Nat.zero_le d))
  | plainPartial hget => exact takes_partial hreg hD hget hn
  | boundPartial hget =>
    simp only [Node.levels, max_le_iff] at hn
    exact takes_partial hreg hD hget hn.1
  | argument hmem =>
    simp only [Node.levels, max_le_iff] at hn
    exact .part (Nat.le_trans (levels_le_levelsArguments hmem) hn.2)
  | block => exact .part hn

/-- With any budget, what takes at most `d` levels is not cut off where there is room for them. -/
theorem evaluate_inRoom (budget : Nat) {t : Task}
    (ht : t.Within (Script.CarriesOut reg) (Task.Takes D d)) :
    (evaluate reg budget t).Meets (.inRoom d) := by
  induction budget generalizing d t with
  | zero => exact fun _ => trivial
  | succ budget ih =>
    cases t with
    | block b =>
      obtain ⟨hb⟩ := ht
      have hb : levelsItems D b + 1 ≤ d := hb
      obtain ⟨d, rfl⟩ : ∃ k, d = k + 1 := ⟨d - 1, by omega⟩
      -- the nodes are rendered one level further inside, where there is room for one level less
      have hitems : (Evaluation.items (evaluate reg budget) b).Meets (.inRoom d) := by
        refine Evaluation.meets_items (stable_inRoom d) fun n hn => ih (.part ?_)
        exact Nat.le_trans (levels_le_levelsItems hn) (Nat.le_of_succ_le_succ hb)
      refine Evaluation.meets_block hitems (fun ctx hfull => ⟨⟨rfl, rfl⟩, fun hroom => ?_⟩)
        fun ctx o _ => inRoom_level
      omega
    | node n =>
      obtain ⟨hn⟩ := ht
      refine Evaluation.meets_node (stable_inRoom d) (fun t hc => ih (hc.takes hreg hD hn)) ?_
      intro e hmiss ctx
      refine ⟨⟨rfl, rfl⟩, fun _ => ?_⟩
      rintro ⟨limit, rfl⟩
      cases hmiss
    | script code =>
      cases ht with
      | part h => exact h.elim
      | script hcode hg =>
        exact fun ctx => run_keeping (kept_inRoom d)
          (hcode.asks.imp fun t ht => ih (ht.within hreg hg)) hcode.requests hcode.raises
          fun e he _ => he

end

/-- Where no template includes itself, and the host renders what it is given and does not count
levels, a rendering with room for the levels of its block is not cut off by the depth limit. -/
theorem render_inRoom {reg : Registry} (hreg : reg.RendersGiven) (hacyclic : reg.Acyclic) :
    (∃! D, reg.HasLevels D) ∧
    ∀ D, reg.HasLevels D → ∀ (b : Block) (ctx : Context),
      ctx.depth + levelsBlock D b ≤ ctx.maxDepth →
      ∀ limit ctx', b.render reg ctx ≠ some (.error (.tooDeep limit), ctx') := by
  refine ⟨hacyclic.existsUnique_levels, fun D hD b ctx hroom limit ctx' h => ?_⟩
  have hb : (Task.block b).Takes D (levelsBlock D b) := Nat.le_refl _
  have hmeets := evaluate_inRoom hreg hD openCalls (.part hb) ctx
  unfold Rendering.ending at hmeets
  rw [show evaluate reg openCalls (.block b) ctx = _ from h] at hmeets
  exact hmeets.2 hroom ⟨limit, rfl⟩

/-! ## A host -/

theorem rendersGiven_letHost : letHost.RendersGiven := by
  refine eachScript_letHost (fun params body otherwise => ⟨?_, ?_, raisesOnly_letHelper _ _ _ _⟩)
    ⟨⟨nofun, fun _ => trivial⟩, ⟨by simp [Request.CountsNothing], fun _ => trivial⟩,
      fun _ => trivial⟩
  · exact asksOnly_letHelper fun _ hb => .part (.body hb)
  · refine requestsOnly_letHelper ?_ ?_ ?_ fun _ _ => ?_
    all_goals simp [Request.CountsNothing]

theorem includes_letHost {outer inner : String} (h : letHost.Includes outer inner) :
    outer = "p" ∧ inner = "q" := by
  obtain ⟨root, hget, n, hn, hinner⟩ := h
  simp only [letHost, Table.get?] at hget
  split at hget
  · rename_i heq
    cases hget
    obtain rfl := List.mem_singleton.1 hn
    refine ⟨heq.symm, ?_⟩
    cases hinner with
    | here hname =>
      cases hname
      rfl
    | child hm => cases hm
  · split at hget <;> cases hget

theorem acyclic_letHost : letHost.Acyclic := by
  have hends : ∀ {outer inner}, Relation.TransGen letHost.Includes outer inner →
      outer = "p" ∧ inner = "q" := by
    intro outer inner h
    induction h with
    | single h => exact includes_letHost h
    | tail _ h ih => exact ⟨ih.1, (includes_letHost h).2⟩
  intro name h
  obtain ⟨rfl, hne⟩ := hends h
  exact absurd hne (by decide)

def letLevels (name : String) : Nat := if name = "p" then 1 else 0

theorem hasLevels_letHost : letHost.HasLevels letLevels := by
  intro name
  simp only [Registry.levelsOf, letHost, Table.get?, letLevels]
  by_cases hp : name = "p"
  · subst hp
    rfl
  · rw [if_neg hp, if_neg (Ne.symm hp)]
    by_cases hq : "q" = name
    · rw [if_pos hq]
    · rw [if_neg hq]

theorem render_inRoom_letHost :
    letHost.RendersGiven ∧ letHost.Acyclic ∧ letHost.HasLevels letLevels ∧
      levelsBlock letLevels [letNode] = 3 ∧
      Block.render letHost [letNode] { maxDepth := 3 } = some (.ok "1", { maxDepth := 3 }) ∧
      ∀ limit ctx, Block.render letHost [letNode] { maxDepth := 3 } ≠
        some (.error (.tooDeep limit), ctx) := by
  have hroom : 0 + levelsBlock letLevels [letNode] ≤ 3 := by decide
  exact ⟨rendersGiven_letHost, acyclic_letHost, hasLevels_letHost, by decide, rfl,
    (render_inRoom rendersGiven_letHost acyclic_letHost).2 letLevels hasLevels_letHost [letNode]
      { maxDepth := 3 } hroom⟩

end BraceTemplate
