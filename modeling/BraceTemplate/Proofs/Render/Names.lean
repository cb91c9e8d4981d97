import BraceTemplate.Proofs.Render.Lookup
import BraceTemplate.Proofs.Render.Simulation

/-!
# Names that are not used

Helpers, binders and partials are looked up by the names that nodes give, and the helper that stands
in for missing ones by its own. So an entry of the registry whose name no node gives may be
added or replaced without a trace (`render_add_of_unused`), where host code leaves the looking up to
the nodes that it renders. Of each kind of node only the entries of its own kind matter.
-/

namespace BraceTemplate

open Rendering

/-! ## Scripts that look up nothing -/

def Request.NamesNothing : Request → Prop
  | callHelper _ _ _ _ | callBinder _ _ _ _ _ | callPartial _ => False
  | _ => True

/-- The script renders what it is handed, and looks up nothing itself. -/
def Script.LooksUpNothing (reg : Registry) (g : Givens) (code : Script String) : Prop :=
  code.HandsOn reg g ∧ code.RequestsOnly Request.NamesNothing

def Registry.LooksUpNothing (reg : Registry) : Prop := reg.EachScript (Script.LooksUpNothing reg)

/-! ## Registries that agree on names -/

theorem Node.IsText.findsSame {reg reg' : Registry} {n : Node} (h : n.IsText) :
    n.FindsSame reg reg' := by
  cases n with
  | content | literal => trivial
  | _ => exact h.elim

namespace Evaluation

variable {reg reg' : Registry} {call call' : Task → Rendering String}

/-- A node renders alike from two registries that find the same under its name. -/
theorem node_congr {n : Node} (h : reg.Agrees reg' (n = ·))
    (hcall : ∀ t, n.Calls reg t → call t = call' t) : node reg call n = node reg' call' n :=
  agree_eq.1 <| consistent_eq.follows_node h (fun t ht => agree_eq.2 (hcall t ht))
    fun _ _ _ hpq => agree_eq.2 (by rw [agree_eq.1 hpq])

theorem answer_congr (hescape : reg'.escape = reg.escape) {r : Request}
    (hcall : ∀ t, r.Asks reg t → call t = call' t) (hr : r.NamesNothing) :
    answer reg call r = answer reg' call' r := by
  cases r with
  | renderBlock b => simp only [answer, hcall _ (.block b)]
  | renderNode n => simp only [answer, hcall _ (.node n)]
  | escape text => simp only [answer, hescape]
  | callHelper | callBinder | callPartial => exact hr.elim
  | _ => rfl

theorem run_congr {α : Type} (hescape : reg'.escape = reg.escape) {code : Script α}
    (hcall : code.AsksOnly reg fun t => call t = call' t)
    (hcode : code.RequestsOnly Request.NamesNothing) :
    run reg call code = run reg' call' code := by
  induction code with
  | done | fail => rfl
  | ask r next ih =>
    have hnext : (fun a => run reg call (next a)) = fun a => run reg' call' (next a) :=
      funext fun a => ih a (hcall.2 a) (hcode.2 a)
    simp only [run, answer_congr hescape hcall.1 hcode.1, hnext]

end Evaluation

section
variable {reg reg' : Registry} {b : Block}

/-- Two registries that agree on the names of all nodes that a rendering may come to render the
same. -/
theorem evaluate_congr (hreg : reg.LooksUpNothing) (h : reg.Agrees reg' (reg.Reaches b))
    (budget : Nat) {t : Task} (ht : t.Within (Script.LooksUpNothing reg)
      (Task.Of fun n => n.IsText ∨ reg.Reaches b n)) :
    evaluate reg budget t = evaluate reg' budget t := by
  induction budget generalizing t with
  | zero => rfl
  | succ budget ih =>
    cases t with
    | block b' =>
      obtain ⟨hb⟩ := ht
      exact agree_eq.1 <| consistent_eq.follows_block fun n hn => agree_eq.2 (ih (.part (hb n hn)))
    | node n =>
      obtain ⟨hn⟩ := ht
      refine Evaluation.node_congr ⟨h.escape, h.fallback, ?_⟩ fun t hc =>
        ih (hc.within hreg fun m => Registry.Reaches.next hn)
      rintro _ rfl
      rcases hn with htext | hreach
      · exact htext.findsSame
      · exact h.finds n hreach
    | script code =>
      obtain ⟨⟨g, -, hnames⟩, hasks⟩ := ht.handsOn hreg fun h => h.1
      exact Evaluation.run_congr h.escape (hasks.imp fun t => ih) hnames

end

/-! ## Entries -/

/-- The path of the variable that a node refers to, by which a helper may be found. -/
def Node.referencePath? : Node → Option String
  | reference _ path _ => some path
  | _ => none

inductive Entry where
  | helper (name : String) (h : Helper)
  | binder (name : String) (h : Binder)
  | registered (name : String) (p : Partial)

/-- The registry with the entry, in place of one of the same kind and name. -/
def Registry.add (reg : Registry) : Entry → Registry
  | .helper name h => reg.addHelper name h
  | .binder name h => reg.addBinder name h
  | .registered name p => reg.addPartial name p

namespace Entry

def IsFallback : Entry → Prop
  | helper name _ => name = Registry.fallback
  | _ => False

/-- The node would look the entry up. -/
def UsedBy (n : Node) : Entry → Prop
  | helper name _ => n.helperName? = some name ∨ n.referencePath? = some name
  | binder name _ => n.binderName? = some name
  | registered name _ => n.partialName? = some name

/-- No node of the block looks the entry up, and none of the registered templates. -/
def Unused (reg : Registry) (b : Block) (e : Entry) : Prop :=
  ¬ e.IsFallback ∧ ∀ n, reg.Reaches b n → ¬ e.UsedBy n

variable {reg : Registry} {e : Entry} {n : Node}

theorem findsSame_of_not_usedBy (h : ¬ e.UsedBy n) : n.FindsSame reg (reg.add e) := by
  have hinsert : ∀ {α : Type} (t : Table α) {name key : String} (a : α), name ≠ key →
      Table.get? (Table.insert t key a) name = Table.get? t name := by
    intro α t name key a hne
    rw [Table.get?_insert, if_neg (Ne.symm hne)]
  cases e with
  | helper key f =>
    cases n with
    | reference output path trim =>
      exact hinsert _ f fun hkey => h (.inr (congrArg some hkey))
    | helper output name params body otherwise trim marks =>
      exact hinsert _ f fun hkey => h (.inl (congrArg some hkey))
    | binder | plainPartial | boundPartial => rfl
    | _ => trivial
  | binder key f =>
    cases n with
    | binder name params names body otherwise marks =>
      exact hinsert _ f fun hkey => h (congrArg some hkey)
    | reference | helper | plainPartial | boundPartial => rfl
    | _ => trivial
  | registered key p =>
    cases n with
    | plainPartial name args trim => exact hinsert _ p fun hkey => h (congrArg some hkey)
    | boundPartial name args trim => exact hinsert _ p fun hkey => h (congrArg some hkey)
    | reference | helper | binder => rfl
    | _ => trivial

/-- An entry that the nodes in `p` do not use does not show to them. -/
theorem agrees_add {p : Node → Prop} (hfallback : ¬ e.IsFallback) (h : ∀ n, p n → ¬ e.UsedBy n) :
    reg.Agrees (reg.add e) p where
  escape := by cases e <;> rfl
  fallback := by
    cases e with
    | helper key f =>
      exact (Table.get?_insert _ _ _ _).trans (if_neg hfallback)
    | binder | registered => rfl
  finds n hn := findsSame_of_not_usedBy (h n hn)

end Entry

/-- Where the host looks up nothing itself, an entry that no node uses may be added or replaced, and
every rendering has the same result and leaves the same context. A plain helper is never looked up
for the node of a binder, but to stand in for it, and a binder for no other node. -/
theorem render_add_of_unused {reg : Registry} (hreg : reg.LooksUpNothing) :
    (∀ (e : Entry) (b : Block), e.Unused reg b → b.render (reg.add e) = b.render reg) ∧
    (∀ (e : Entry) (n : Node), e.Unused reg [n] → n.render (reg.add e) = n.render reg) ∧
    (∀ (e : Entry) (p : Param), e.Unused reg p.node?.toList →
      p.evaluate (reg.add e) = p.evaluate reg ∧ p.render (reg.add e) = p.render reg) ∧
    (∀ (name : String) (h : Helper) (call : Task → Rendering String) (n : Node),
      name ≠ Registry.fallback → n.binderName?.isSome →
        Evaluation.node (reg.addHelper name h) call n = Evaluation.node reg call n) ∧
    (∀ (name : String) (h : Binder) (call : Task → Rendering String) (n : Node),
      n.binderName? = none →
        Evaluation.node (reg.addBinder name h) call n = Evaluation.node reg call n) := by
  have hevaluate : ∀ {e : Entry} {b : Block} {t : Task}, e.Unused reg b →
      t.Of (reg.Reaches b) → evaluate (reg.add e) openCalls t = evaluate reg openCalls t :=
    fun h ht => (evaluate_congr hreg (Entry.agrees_add h.1 h.2) _
      (.part (ht.imp fun _ => .inr))).symm
  refine ⟨fun e b h => hevaluate h fun n => .root, fun e n h => hevaluate h (.root (by simp)),
    fun e p h => ?_, fun name h call n hname hn => ?_, fun name h call n hn => ?_⟩
  · cases p with
    | path =>
      simp only [Param.evaluate, Param.render, Evaluation.value, Evaluation.text, and_self]
    | node n =>
      have hcall : evaluate (reg.add e) openCalls (.node n) = evaluate reg openCalls (.node n) :=
        hevaluate h (.root (List.mem_singleton.2 rfl))
      simp only [Param.evaluate, Param.render, Evaluation.value, Evaluation.text, hcall, and_self]
  · have hunused : ∀ m, n = m → ¬ (Entry.helper name h).UsedBy m := by
      rintro _ rfl (hused | hused)
      · cases n <;> simp_all [Node.helperName?, Node.binderName?]
      · cases n <;> simp_all [Node.referencePath?, Node.binderName?]
    have hagree : reg.Agrees (reg.add (.helper name h)) (n = ·) := Entry.agrees_add hname hunused
    exact (Evaluation.node_congr hagree fun _ _ => rfl).symm
  · have hunused : ∀ m, n = m → ¬ (Entry.binder name h).UsedBy m := by
      rintro _ rfl hused
      cases hn.symm.trans hused
    have hagree : reg.Agrees (reg.add (.binder name h)) (n = ·) := Entry.agrees_add id hunused
    exact (Evaluation.node_congr hagree fun _ _ => rfl).symm

theorem looksUpNothing_letHost : letHost.LooksUpNothing :=
  eachScript_letHost (fun _ _ _ => ⟨handsOn_letHelper _ _ _ _,
      requestsOnly_letHelper trivial trivial trivial fun _ _ => trivial⟩)
    ⟨⟨nofun, fun _ => trivial⟩, ⟨trivial, fun _ => trivial⟩⟩

/-- A helper named like a partial, and a binder and a partial named like the helper. -/
theorem render_add_letHost :
    letHost.LooksUpNothing ∧
      Block.render (letHost.addHelper "q" letHelper) [letNode] = Block.render letHost [letNode] ∧
      Block.render (letHost.addBinder "let" fun _ _ _ _ => .done "") [letNode] =
        Block.render letHost [letNode] ∧
      Block.render (letHost.addPartial "let" (.template [])) [letNode] =
        Block.render letHost [letNode] := by
  have hadd := (render_add_of_unused looksUpNothing_letHost).1
  refine ⟨looksUpNothing_letHost,
    hadd (.helper "q" letHelper) [letNode] ⟨by simp [Entry.IsFallback, Registry.fallback], ?_⟩,
    hadd (.binder "let" fun _ _ _ _ => .done "") [letNode] ⟨id, ?_⟩,
    hadd (.registered "let" (.template [])) [letNode] ⟨id, ?_⟩⟩
  all_goals
    intro n hn hused
    rcases reaches_letNode hn with rfl | ⟨name, key, rfl | rfl, rfl⟩ <;>
      simp [Entry.UsedBy, letNode, Node.helperName?, Node.referencePath?, Node.binderName?,
        Node.partialName?] at hused

end BraceTemplate
