import BraceTemplate.Proofs.Grammar.Nesting
import BraceTemplate.Proofs.Render.Depth
import BraceTemplate.Proofs.Render.Lockstep

/-!
# Every rendering ends

A template may include itself, so nothing in the trees bounds the calls that are open at once. The
depth limit does: between a block and the next one inside it, each node that is called nests less
than the one before, with no more than so many helpers in between that call each other, and each
block takes one level from the room that is left. So `blockCalls` bounds the calls for a block by
that room and by how deep the trees nest, and with that budget or a larger one the result is always
the same. A host that undoes the counting of blocks, or a helper that calls itself, has no such
bound (`evaluate_leaveHost`).
-/

namespace BraceTemplate

/-! ## How deep the trees nest -/

theorem nest_le_nestBlock {n : Node} {b : Block} (h : n ∈ b) : n.nest ≤ nestBlock b := by
  induction b with
  | nil => cases h
  | cons m b ih =>
    rw [nestBlock]
    rcases List.mem_cons.1 h with rfl | h
    · omega
    · have := ih h
      omega

theorem nest_lt_nestBody {n : Node} {body : Option Block} (h : n ∈ body.getD []) :
    n.nest < nestBody body := by
  cases body with
  | none => cases h
  | some b =>
    have := nest_le_nestBlock h
    rw [nestBody]
    simp only [Option.getD_some] at this
    omega

theorem Node.IsText.nest {n : Node} (h : n.IsText) : n.nest = 0 := by
  cases n with
  | content | literal => rfl
  | _ => exact h.elim

theorem Node.nest_lt_nest {n : Node} (hn : ¬ n.IsText) : n.nest < (Param.node n).nest := by
  cases n with
  | literal => exact (hn trivial).elim
  | _ => simp [Param.nest]

/-- The nodes right below a node nest less than it, if it is no block, or they are text. -/
theorem Node.nest_child {n m : Node} (hn : n ≠ .block n.children) (hm : m ∈ n.children) :
    m.IsText ∨ m.nest < n.nest := by
  by_cases htext : m.IsText
  · exact .inl htext
  refine .inr ?_
  have hparam := nest_lt_nest htext
  cases n with
  | helper output name params body otherwise trim marks =>
    simp only [children, List.mem_append, mem_filterMap_node?] at hm
    rw [nest]
    rcases hm with hm | hm | hm
    · have := nest_le_nestParams hm
      omega
    · have := nest_lt_nestBody hm
      omega
    · have := nest_lt_nestBody hm
      omega
  | binder name params names body otherwise marks =>
    simp only [children, List.mem_append, mem_filterMap_node?] at hm
    rw [nest]
    rcases hm with hm | hm | hm
    · have := nest_le_nestParams hm
      omega
    · have := nest_le_nestBlock hm
      omega
    · have := nest_lt_nestBody hm
      omega
  | boundPartial name args trim =>
    obtain ⟨⟨key, _ | m⟩, ha, h⟩ := List.mem_filterMap.1 hm <;> cases h
    have := nest_le_nestArguments ha
    rw [nest]
    simp only [Argument.nest, Argument.value] at this
    omega
  | block b => exact (hn rfl).elim
  | _ => cases hm

def Partial.nest : Partial → Nat
  | template root => nestBlock root
  | script _ => 0

def Registry.nest (reg : Registry) : Nat :=
  reg.partials.foldr (fun entry most => max entry.2.nest most) 0

theorem Registry.nest_template {reg : Registry} {name : String} {root : Block}
    (h : Table.get? reg.partials name = some (.template root)) : nestBlock root ≤ reg.nest := by
  rw [nest]
  generalize reg.partials = entries at h ⊢
  induction entries with
  | nil => cases h
  | cons entry entries ih =>
    rw [Table.get?] at h
    rw [List.foldr_cons]
    split at h
    · obtain ⟨key, p⟩ := entry
      cases h
      exact Nat.le_max_left _ _
    · exact Nat.le_trans (ih h) (Nat.le_max_right _ _)

/-! ## The calls that are open at once -/

/-- The most calls that are open at once for a block whose nodes nest `h` levels at most, like those
of registered templates, where there is room for `d` levels of depth and `k` helpers may be called
inside another. -/
def blockCalls (k h d : Nat) : Nat := 1 + d * ((k + 2) * h + k + 3)

theorem blockCalls_pos (k h d : Nat) : 0 < blockCalls k h d := Nat.add_pos_left Nat.one_pos _

theorem blockCalls_succ (k h d : Nat) :
    blockCalls k h (d + 1) = blockCalls k h d + ((k + 2) * h + k + 3) := by
  rw [blockCalls, blockCalls, Nat.succ_mul]
  omega

/-- A script renders what it is handed, or hands it on to helpers, of which up to `k` are called
inside each other, and it leaves only levels of its own. -/
def Script.RendersHanded (reg : Registry) (k : Nat) (g : Givens) (code : Script String) : Prop :=
  code.HandsOn reg g ∧ code.NestsCalls reg k ∧ code.LeavesOwn 0

/-- The budget is enough for the task, where there is room for `d` levels of depth. -/
def Task.Fits (reg : Registry) (k h d budget : Nat) : Task → Prop
  | block b => (∀ n ∈ b, n.nest ≤ h) ∧ blockCalls k h d ≤ budget
  | node n => n.IsText ∧ 0 < budget ∨
    n.nest ≤ h ∧ blockCalls k h d + (k + 2) * n.nest + k + 2 ≤ budget
  | script code => ∃ g m j, (∀ t, g.Part t → t.Of fun n => n.IsText ∨ n.nest < m) ∧
      code.HandsOn reg g ∧ code.NestsCalls reg j ∧ code.LeavesOwn 0 ∧
      m ≤ h ∧ blockCalls k h d + (k + 2) * m + j + 1 ≤ budget

section
variable {reg : Registry} {k h d budget : Nat}

/-- What a node calls takes less of the budget than the node. -/
theorem Node.Calls.fits (hreg : reg.EachScript (Script.RendersHanded reg k)) (hroots : reg.nest ≤ h)
    {n : Node} {t : Task} (hn : n.nest ≤ h)
    (hbudget : blockCalls k h d + (k + 2) * n.nest + k + 1 ≤ budget) (hc : n.Calls reg t) :
    t.Fits reg k h d budget := by
  have hpos := blockCalls_pos k h d
  rcases hc.cases hreg with ⟨code, g, rfl, ⟨hask, hnest, hleave⟩, hblock, hg⟩ |
    ⟨m, hm, rfl, hblock⟩ | ⟨hblock, rfl⟩ | ⟨name, root, -, hget, rfl⟩
  · refine ⟨g, n.nest, k, fun t ht => (hg t ht).imp fun m hm => ?_, hask, hnest, hleave, hn,
      hbudget⟩
    exact hm.elim .inl (nest_child hblock)
  · rcases nest_child hblock hm with htext | hlt
    · exact .inl ⟨htext, by omega⟩
    · have := Nat.mul_le_mul_left (k + 2) hlt
      rw [Nat.mul_succ] at this
      exact .inr ⟨by omega, by omega⟩
  · refine ⟨fun m hm => Nat.le_trans (nest_le_nestBlock hm) ?_, by omega⟩
    rw [hblock, nest] at hn
    exact hn
  · exact ⟨fun m hm => Nat.le_trans (nest_le_nestBlock hm)
      (Nat.le_trans (Registry.nest_template hget) hroots), by omega⟩

/-- What a script renders takes less of the budget than the script. -/
theorem Task.Of.fits {m : Nat} {t : Task} (hm : m ≤ h)
    (hbudget : blockCalls k h d + (k + 2) * m ≤ budget)
    (ht : t.Of fun n => n.IsText ∨ n.nest < m) : t.Fits reg k h d budget := by
  have hpos := blockCalls_pos k h d
  cases t with
  | block b =>
    refine ⟨fun n hn => ?_, by omega⟩
    rcases ht n hn with htext | hlt
    · rw [htext.nest]
      exact Nat.zero_le h
    · omega
  | node n =>
    rcases ht with htext | hlt
    · exact .inl ⟨htext, by omega⟩
    · have := Nat.mul_le_mul_left (k + 2) hlt
      rw [Nat.mul_succ] at this
      exact .inr ⟨by omega, by omega⟩
  | script code => exact ht.elim

/-- So does a helper that a script calls, as there are fewer that it may call in turn. -/
theorem PassedOn.fits (hreg : reg.EachScript (Script.RendersHanded reg k)) {g : Givens} {m j : Nat}
    {t : Task} (hg : ∀ t, g.Part t → t.Of fun n => n.IsText ∨ n.nest < m) (hm : m ≤ h)
    (hbudget : blockCalls k h d + (k + 2) * m + j ≤ budget)
    (hnest : t.IfScript fun code => ∃ i < j, code.NestsCalls reg i)
    (ht : PassedOn reg g.Handed t) : t.Fits reg k h d budget := by
  cases ht.within hreg fun t ht => ht.of hg with
  | part ht => exact ht.fits hm (by omega)
  | script hcode hg' =>
    obtain ⟨i, hi, hnest⟩ := hnest
    exact ⟨_, m, i, hg', hcode.1, hnest, hcode.2.2, hm, by omega⟩

theorem Script.NestsCalls.lower {j : Nat} {code : Script String} (h : code.NestsCalls reg j) :
    code.AsksOnly reg (Task.IfScript fun code => ∃ i < j, code.NestsCalls reg i) := by
  cases j with
  | zero =>
    refine h.imp fun t ht => ?_
    cases t with
    | block | node => trivial
    | script code => exact ht.elim
  | succ j =>
    refine h.imp fun t ht => ?_
    cases t with
    | block | node => trivial
    | script code => exact ⟨j, Nat.lt_succ_self j, ht⟩

/-- A budget that fits is used up only where there is room for more levels. -/
theorem meets_of_fits (hreg : reg.EachScript (Script.RendersHanded reg k)) (hroots : reg.nest ≤ h)
    {t : Task} (ht : t.Fits reg k h d budget) :
    (evaluate reg budget t).Meets (.noGain (d < ·)) := by
  have hleaves : reg.LeavesOwn := hreg.imp fun _ _ hcode => hcode.2.2
  induction budget generalizing d t with
  | zero =>
    have hpos := blockCalls_pos k h d
    cases t with
    | block b => have := ht.2; omega
    | node n => rcases ht with ⟨_, h⟩ | ⟨_, h⟩ <;> omega
    | script code => obtain ⟨_, _, _, -, -, -, -, -, h⟩ := ht; omega
  | succ budget ih =>
    have hstable : (Contract.noGain (d < ·)).Stable := stable_noGain fun hle hd => by omega
    cases t with
    | block b =>
      obtain ⟨hb, hbudget⟩ := ht
      cases d with
      | zero =>
        -- a block inside this one is refused, so any budget will do for it
        refine Evaluation.meets_block (Evaluation.meets_items (stable_noGain fun _ => id)
          fun n _ => evaluate_noGain hleaves budget trivial) (fun _ _ => Nat.le_refl _) ?_
        exact fun ctx o hroom => noGain_level (fun _ => by simp only [Context.room]; omega) hroom
      | succ d =>
        rw [blockCalls_succ] at hbudget
        refine Evaluation.meets_block (Evaluation.meets_items (Q := .noGain (d < ·))
          (stable_noGain fun hle hd => by omega) fun n hn => ih (.inr ⟨hb n hn, ?_⟩))
          (fun _ _ => Nat.le_refl _) ?_
        · have := Nat.mul_le_mul_left (k + 2) (hb n hn)
          omega
        · exact fun ctx o hroom => noGain_level (fun hd => by omega) hroom
    | node n =>
      rcases ht with ⟨htext, -⟩ | ⟨hn, hbudget⟩
      · cases n with
        | content | literal => exact Rendering.meets_pure hstable _
        | _ => exact htext.elim
      · exact Evaluation.meets_node hstable (fun t hc => ih (hc.fits hreg hroots hn (by omega)))
          fun _ _ ctx => Nat.le_refl _
    | script code =>
      obtain ⟨g, m, j, hg, hask, hnest, hleave, hm, hbudget⟩ := ht
      exact fun ctx => run_within (fun hle hd => by omega) hleave
        ((hask.and hnest.lower).imp fun t ht => ih (ht.1.fits hreg hg hm (by omega) ht.2))
        (Nat.le_refl _)

end

/-! ## Results -/

namespace Rendering

variable {α β : Type} {p : Rendering α} {f : α → Rendering β} {g : Context → Context}
variable {ctx : Context}

end Rendering

/-- The task has a result that every budget gives, from `bound` on, and no budget another. -/
def Task.Ends (reg : Registry) (bound : Nat) (ctx : Context) (t : Task) : Prop :=
  ∃ x, (∀ budget, bound ≤ budget → evaluate reg budget t ctx = some x) ∧
    ∀ budget y, evaluate reg budget t ctx = some y → y = x

theorem Task.Fits.ends {reg : Registry} {k h d bound : Nat} {t : Task} {ctx : Context}
    (hreg : reg.EachScript (Script.RendersHanded reg k)) (hroots : reg.nest ≤ h)
    (hroom : ctx.room ≤ d) (ht : t.Fits reg k h d bound) : t.Ends reg bound ctx := by
  have hmeets := meets_of_fits hreg hroots ht ctx
  unfold Rendering.ending at hmeets
  cases hx : evaluate reg bound t ctx with
  | none =>
    rw [hx] at hmeets
    have : d < ctx.room := hmeets
    omega
  | some x =>
    refine ⟨x, fun budget hle => evaluate_mono hle hx, fun budget y hy => ?_⟩
    rcases Nat.le_total bound budget with hle | hle
    · exact Option.some.inj (hy.symm.trans (evaluate_mono hle hx))
    · exact Option.some.inj ((evaluate_mono hle hy).symm.trans hx)

/-- The most calls that are open at once for a block, where `k` helpers may be called inside
another. -/
def Block.calls (reg : Registry) (k : Nat) (ctx : Context) (b : Block) : Nat :=
  blockCalls k (max (nestBlock b) reg.nest) ctx.room

def Node.calls (reg : Registry) (k : Nat) (ctx : Context) (n : Node) : Nat :=
  blockCalls k (max n.nest reg.nest) ctx.room + (k + 2) * n.nest + k + 2

section
variable {reg : Registry} {k : Nat} (hreg : reg.EachScript (Script.RendersHanded reg k))
variable (ctx : Context)
include hreg

theorem block_ends (b : Block) : (Task.block b).Ends reg (b.calls reg k ctx) ctx :=
  Task.Fits.ends hreg (Nat.le_max_right (nestBlock b) _) (Nat.le_refl _)
    ⟨fun _ hn => Nat.le_trans (nest_le_nestBlock hn) (Nat.le_max_left _ _), Nat.le_refl _⟩

theorem node_ends (n : Node) : (Task.node n).Ends reg (n.calls reg k ctx) ctx :=
  Task.Fits.ends hreg (Nat.le_max_right n.nest _) (Nat.le_refl _)
    (.inr ⟨Nat.le_max_left _ _, Nat.le_refl _⟩)

end

theorem Task.Ends.returns {reg : Registry} {bound : Nat} {ctx : Context} {t : Task}
    (h : t.Ends reg bound ctx) (hbound : bound ≤ openCalls) :
    ∃ result ctx', evaluate reg openCalls t ctx = some (result, ctx') := by
  obtain ⟨⟨result, ctx'⟩, hx, -⟩ := h
  exact ⟨result, ctx', hx _ hbound⟩

/-- A call of the helper `name` with a body that includes the template `loop`. -/
def loopNode (name : String) : Node :=
  .helper .raw name [] (some [.plainPartial "loop" [] .none]) none .none (some .none)

/-- A host with the helper `h`, and a template that includes itself in the body of it. -/
def loopingHost (name : String) (h : Helper) : Registry where
  helpers := [(name, h)]
  partials := [("loop", .template [loopNode name])]

/-- A rule holds for the host if it holds for its helper. -/
theorem eachScript_loopingHost {P : Givens → Script String → Prop} {name : String} {h : Helper}
    (hP : ∀ params body otherwise, P ⟨params, body, otherwise⟩ (h params body otherwise)) :
    (loopingHost name h).EachScript P where
  helper hget := by
    simp only [loopingHost, Table.get?] at hget
    split at hget <;> cases hget
    exact hP
  binder hget := by cases hget
  registered hget := by
    simp only [loopingHost, Table.get?] at hget
    split at hget <;> cases hget

def loopHost : Registry := loopingHost "let" letHelper

theorem rendersHanded_letHelper (reg : Registry) (params : List Param)
    (body otherwise : Option Block) :
    (letHelper params body otherwise).RendersHanded reg 0 ⟨params, body, otherwise⟩ :=
  ⟨handsOn_letHelper _ _ _ _, asksOnly_letHelper fun _ _ => trivial, leavesOwn_letHelper _ _ _⟩

theorem rendersHanded_loopHost : loopHost.EachScript (Script.RendersHanded loopHost 0) :=
  eachScript_loopingHost (rendersHanded_letHelper _)

end BraceTemplate
