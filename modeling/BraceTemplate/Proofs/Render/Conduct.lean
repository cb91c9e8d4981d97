import BraceTemplate.Proofs.Render.Balance

/-!
# The conduct of host code

A script is a tree of requests, so a rule for host code is a property of every path through that
tree, whatever the answers on the way. The rules here say which requests a script may make
(`Script.RequestsOnly`), what it may have rendered (`Script.AsksOnly`), which errors it may end in
(`Script.RaisesOnly`), which levels of depth it may leave (`Script.LeavesOwn`), and which errors it
must pass on (`Script.Yields`).

Most of what is proved about hosts asks that a helper renders what it is handed, or hands it on to
other helpers (`Script.HandsOn`). A class of tasks that holds what is handed then holds all that is
carried out for it (`PassedOn.within`).
-/

namespace BraceTemplate

def failure? {α : Type} : Except RenderError α → Option RenderError
  | .ok _ => none
  | .error e => some e

/-! ## Requests -/

namespace Request

def error? : (r : Request) → r.Answer → Option RenderError
  | enter, a => failure? a
  | renderBlock _, a => failure? a
  | renderNode _, a => failure? a
  | callHelper _ _ _ _, a => a.bind failure?
  | callBinder _ _ _ _ _, a => a.bind failure?
  | callPartial _, a => a.bind failure?
  | _, _ => none

/-- Of `k` levels that a script has entered and not left, those that remain after the request. -/
def levels (k : Nat) : (r : Request) → r.Answer → Nat
  | enter, .ok _ => k + 1
  | leave, _ => k - 1
  | _, _ => k

/-- The task that is carried out for a request. -/
inductive Asks (reg : Registry) : Request → Task → Prop
  | block (b : Block) : Asks reg (renderBlock b) (.block b)
  | node (n : Node) : Asks reg (renderNode n) (.node n)
  | helper {name : String} {h : Helper} {params : List Param} {body otherwise : Option Block} :
      Table.get? reg.helpers name = some h →
      Asks reg (callHelper name params body otherwise) (.script (h params body otherwise))
  | binder {name : String} {h : Binder} {params : List Param} {names : List String}
      {body : Block} {otherwise : Option Block} :
      Table.get? reg.binders name = some h →
      Asks reg (callBinder name params names body otherwise)
        (.script (h params names body otherwise))
  | registered {name : String} {p : Partial} :
      Table.get? reg.partials name = some p → Asks reg (callPartial name) p.task

/-- Nothing is rendered for the request and no level entered, so it has no error for an answer. -/
def IsQuiet : Request → Prop
  | get _ | bind _ _ | openScope | closeScope | leave | scoping | escape _ => True
  | _ => False

theorem IsQuiet.not_asks {reg : Registry} {r : Request} {t : Task} (hr : r.IsQuiet) :
    ¬ r.Asks reg t := by
  intro h
  cases h <;> exact hr

end Request

def Task.IfScript (P : Script String → Prop) : Task → Prop
  | script code => P code
  | _ => True

/-! ## Scripts -/

namespace Script

variable {α : Type}

def RequestsOnly (p : Request → Prop) : Script α → Prop
  | done _ => True
  | fail _ => True
  | ask r next => p r ∧ ∀ a, (next a).RequestsOnly p

/-- All that the script has carried out is in `P`. -/
def AsksOnly (reg : Registry) (P : Task → Prop) : Script α → Prop
  | done _ => True
  | fail _ => True
  | ask r next => (∀ t, r.Asks reg t → P t) ∧ ∀ a, (next a).AsksOnly reg P

/-- The script ends in no error but those in `E` and those that it was answered with. -/
def RaisesOnly (E : RenderError → Prop) : Script α → Prop
  | done _ => True
  | fail e => E e
  | ask r next => ∀ a, (next a).RaisesOnly fun e => E e ∨ r.error? a = some e

/-- The script leaves only levels that it has entered, `k` of them before it starts. -/
def LeavesOwn (k : Nat) : Script α → Prop
  | done _ => True
  | fail _ => True
  | ask r next => (r = .leave → 0 < k) ∧ ∀ a, (next a).LeavesOwn (r.levels k a)

/-- Of the scripts that the script has carried out, and those that they have carried out in turn, at
most `k` run inside each other. -/
def NestsCalls (reg : Registry) : Nat → Script String → Prop
  | 0, code => code.AsksOnly reg (Task.IfScript fun _ => False)
  | k + 1, code => code.AsksOnly reg (Task.IfScript (NestsCalls reg k))

/-- The script ends in the error. On the way it may tidy up, but has nothing rendered. -/
def EndsIn (e : RenderError) : Script α → Prop
  | done _ => False
  | fail e' => e' = e
  | ask r next => r.IsQuiet ∧ ∀ a, (next a).EndsIn e

/-- The script passes on each error in `B` as soon as it is answered with one, and ends in none of
them otherwise. -/
def Yields (B : RenderError → Prop) : Script α → Prop
  | done _ => True
  | fail e => ¬ B e
  | ask r next => ∀ a,
      (∀ e, r.error? a = some e → B e → (next a).EndsIn e) ∧
      ((∀ e, r.error? a = some e → ¬ B e) → (next a).Yields B)

variable {reg : Registry} {P P' : Task → Prop} {E : RenderError → Prop} {s : Script α}

theorem AsksOnly.imp (h : s.AsksOnly reg P) (hP : ∀ t, P t → P' t) : s.AsksOnly reg P' := by
  induction s with
  | done | fail => trivial
  | ask r next ih => exact ⟨fun t ht => hP t (h.1 t ht), fun a => ih a (h.2 a)⟩

theorem AsksOnly.and (h : s.AsksOnly reg P) (h' : s.AsksOnly reg P') :
    s.AsksOnly reg fun t => P t ∧ P' t := by
  induction s with
  | done | fail => trivial
  | ask r next ih => exact ⟨fun t ht => ⟨h.1 t ht, h'.1 t ht⟩, fun a => ih a (h.2 a) (h'.2 a)⟩

theorem asksOnly_quiet {r : Request} {next : r.Answer → Script α} (hr : r.IsQuiet)
    (h : ∀ a, (next a).AsksOnly reg P) : (ask r next).AsksOnly reg P :=
  ⟨fun _ ht => (hr.not_asks ht).elim, h⟩

/-- Where the scripts of the registry are in `P`, and all blocks and nodes, every script asks only
for what is in `P`. -/
theorem asksOnly_of_forall (h : ∀ r t, Request.Asks reg r t → P t) (s : Script α) :
    s.AsksOnly reg P := by
  induction s with
  | done | fail => trivial
  | ask r next ih => exact ⟨h r, ih⟩

theorem requestsOnly_of_forall {p : Request → Prop} (h : ∀ r, p r) (s : Script α) :
    s.RequestsOnly p := by
  induction s with
  | done | fail => trivial
  | ask r next ih => exact ⟨h r, ih⟩

theorem raisesOnly_of_forall (hE : ∀ e, E e) (s : Script α) : s.RaisesOnly E := by
  induction s generalizing E with
  | done => trivial
  | fail e => exact hE e
  | ask r next ih => exact fun a => ih a fun e => .inl (hE e)

/-- No error needs to be passed on where none is in question. -/
theorem yields_of_forall_not {B : RenderError → Prop} (hB : ∀ e, ¬ B e) (s : Script α) :
    s.Yields B := by
  induction s with
  | done => trivial
  | fail e => exact hB e
  | ask r next ih => exact fun a => ⟨fun e _ he => (hB e he).elim, fun _ => ih a⟩

end Script

/-! ## Parts of trees -/

def Param.node? : Param → Option Node
  | .path _ => none
  | .node n => some n

/-- The nodes right below a node. The arguments of a plain partial are not looked at. -/
def Node.children : Node → List Node
  | .helper _ _ params body otherwise _ _ =>
    params.filterMap Param.node? ++ (body.getD [] ++ otherwise.getD [])
  | .binder _ params _ body otherwise _ =>
    params.filterMap Param.node? ++ (body ++ otherwise.getD [])
  | .boundPartial _ args _ => args.filterMap fun a => a.value.node?
  | .block b => b
  | _ => []

def Node.partialName? : Node → Option String
  | .plainPartial name _ _ | .boundPartial name _ _ => some name
  | _ => none

/-- Rendering the one node may come to the other next, which is right below it or in the template
that it names. -/
inductive Node.LeadsTo (reg : Registry) (n : Node) : Node → Prop
  | child {m : Node} : m ∈ n.children → LeadsTo reg n m
  | template {name : String} {root : Block} {m : Node} : n.partialName? = some name →
      Table.get? reg.partials name = some (.template root) → m ∈ root → LeadsTo reg n m

def Node.IsText : Node → Prop
  | .content _ | .literal _ => True
  | _ => False

theorem Node.IsText.not_leadsTo {reg : Registry} {n m : Node} (h : n.IsText) :
    ¬ n.LeadsTo reg m := by
  rintro (hm | ⟨hname, -, -⟩)
  · cases n <;> first | exact h.elim | cases hm
  · cases n <;> first | exact h.elim | cases hname

/-- The task is to render a node in `p`, or a block of such nodes. -/
def Task.Of (p : Node → Prop) : Task → Prop
  | block b => ∀ n ∈ b, p n
  | node n => p n
  | script _ => False

theorem Task.Of.imp {p q : Node → Prop} {t : Task} (h : t.Of p) (hpq : ∀ n, p n → q n) :
    t.Of q := by
  cases t with
  | block => exact fun n hn => hpq n (h n hn)
  | node => exact hpq _ h
  | script => exact h

theorem mem_filterMap_node? {n : Node} {params : List Param} :
    n ∈ params.filterMap Param.node? ↔ .node n ∈ params := by
  rw [List.mem_filterMap]
  constructor
  · rintro ⟨_ | m, hm, h⟩ <;> cases h
    exact hm
  · exact fun h => ⟨_, h, rfl⟩

theorem Node.sizeOf_child {n m : Node} (h : m ∈ n.children) : sizeOf m < sizeOf n := by
  have hparams : ∀ {params : List Param}, .node m ∈ params → sizeOf m < sizeOf params := by
    intro params hm
    have := List.sizeOf_lt_of_mem hm
    simp only [Param.node.sizeOf_spec] at this
    omega
  have hbody : ∀ {body : Option Block}, m ∈ body.getD [] → sizeOf m < sizeOf body := by
    rintro (_ | b) hm
    · cases hm
    · have := List.sizeOf_lt_of_mem hm
      simp only [Option.getD_some] at this
      simp only [Option.some.sizeOf_spec]
      omega
  cases n with
  | helper output name params body otherwise trim marks =>
    simp only [children, List.mem_append, mem_filterMap_node?] at h
    simp only [helper.sizeOf_spec]
    rcases h with hm | hm | hm
    · have := hparams hm
      omega
    · have := hbody hm
      omega
    · have := hbody hm
      omega
  | binder name params names body otherwise marks =>
    simp only [children, List.mem_append, mem_filterMap_node?] at h
    simp only [binder.sizeOf_spec]
    rcases h with hm | hm | hm
    · have := hparams hm
      omega
    · have := List.sizeOf_lt_of_mem hm
      omega
    · have := hbody hm
      omega
  | boundPartial name args trim =>
    obtain ⟨⟨key, _ | m⟩, ha, h⟩ := List.mem_filterMap.1 h <;> cases h
    have := List.sizeOf_lt_of_mem ha
    simp only [Argument.mk.sizeOf_spec, Param.node.sizeOf_spec] at this
    simp only [boundPartial.sizeOf_spec]
    omega
  | block b =>
    have : sizeOf m < sizeOf b := List.sizeOf_lt_of_mem h
    simp only [block.sizeOf_spec]
    omega
  | _ => cases h

/-- What holds of a node if it does of the nodes right below it holds of every node. -/
theorem Node.child_induction {P : Node → Prop} (h : ∀ n, (∀ m ∈ n.children, P m) → P n)
    (n : Node) : P n :=
  h n fun m _ => child_induction h m
termination_by n
decreasing_by exact sizeOf_child ‹_›

/-! ## What a helper is handed -/

/-- What a helper is handed with a call. -/
structure Givens where
  params : List Param := []
  body : Option Block := none
  otherwise : Option Block := none

namespace Givens

/-- The nodes among the parameters, text of the helper's own, and the two blocks. -/
inductive Part (g : Givens) : Task → Prop
  | param {n : Node} : .node n ∈ g.params → Part g (.node n)
  | text {n : Node} : n.IsText → Part g (.node n)
  | body {b : Block} : g.body = some b → Part g (.block b)
  | otherwise {b : Block} : g.otherwise = some b → Part g (.block b)

/-- The parts, and copies of their blocks, or new blocks, with nodes among them appended. -/
inductive Handed (g : Givens) : Task → Prop
  | part {t : Task} : g.Part t → Handed g t
  | appended {b added : Block} : b = [] ∨ g.Part (.block b) → (∀ n ∈ added, g.Part (.node n)) →
      Handed g (.block (b ++ added))

variable {g : Givens} {t : Task} {p : Node → Prop}

theorem Part.of (h : g.Part t) (hparams : ∀ n, .node n ∈ g.params → p n)
    (hbodies : ∀ n ∈ g.body.getD [] ++ g.otherwise.getD [], p n) (htext : ∀ n, n.IsText → p n) :
    t.Of p := by
  cases h with
  | param hn => exact hparams _ hn
  | text hn => exact htext _ hn
  | body hb => exact fun n hn => hbodies n (List.mem_append_left _ (hb ▸ hn))
  | otherwise hb => exact fun n hn => hbodies n (List.mem_append_right _ (hb ▸ hn))

theorem Handed.of (h : g.Handed t) (hg : ∀ t, g.Part t → t.Of p) : t.Of p := by
  cases h with
  | part h => exact hg _ h
  | appended hb hadded =>
    intro n hn
    rcases List.mem_append.1 hn with hn | hn
    · rcases hb with rfl | hb
      · cases hn
      · exact hg _ hb n hn
    · exact hg _ (hadded n hn)

end Givens

/-- What is carried out for a helper that may have the tasks `parts` rendered: these, and helpers
and binders that are handed no others. -/
inductive PassedOn (reg : Registry) (parts : Task → Prop) : Task → Prop
  | part {t : Task} : parts t → PassedOn reg parts t
  | helper {name : String} {h : Helper} {params : List Param} {body otherwise : Option Block} :
      Table.get? reg.helpers name = some h →
      (∀ t, Givens.Part ⟨params, body, otherwise⟩ t → parts t) →
      PassedOn reg parts (.script (h params body otherwise))
  | binder {name : String} {h : Binder} {params : List Param} {names : List String}
      {body : Block} {otherwise : Option Block} :
      Table.get? reg.binders name = some h →
      (∀ t, Givens.Part ⟨params, some body, otherwise⟩ t → parts t) →
      PassedOn reg parts (.script (h params names body otherwise))

/-- The script renders what it is handed, or hands it on to other helpers. -/
def Script.HandsOn (reg : Registry) (g : Givens) (code : Script String) : Prop :=
  code.AsksOnly reg (PassedOn reg g.Handed)

/-! ## Registries -/

/-- Every script that the registry may run obeys the rule `P`, given what it is handed. A partial is
handed nothing. -/
structure Registry.EachScript (reg : Registry) (P : Givens → Script String → Prop) : Prop where
  helper : ∀ {name h}, Table.get? reg.helpers name = some h → ∀ params body otherwise,
    P ⟨params, body, otherwise⟩ (h params body otherwise)
  binder : ∀ {name h}, Table.get? reg.binders name = some h → ∀ params names body otherwise,
    P ⟨params, some body, otherwise⟩ (h params names body otherwise)
  registered : ∀ {name code}, Table.get? reg.partials name = some (.script code) → P {} code

section
variable {reg : Registry} {P P' : Givens → Script String → Prop}

theorem Registry.EachScript.imp (hreg : reg.EachScript P) (h : ∀ g code, P g code → P' g code) :
    reg.EachScript P' where
  helper hget params body otherwise := h _ _ (hreg.helper hget params body otherwise)
  binder hget params names body otherwise := h _ _ (hreg.binder hget params names body otherwise)
  registered hget := h _ _ (hreg.registered hget)

/-- What a script asks for is a script of the registry, where it is one at all. -/
theorem Registry.EachScript.of_asks (hreg : reg.EachScript P) {r : Request} {code : Script String}
    (h : r.Asks reg (.script code)) : ∃ g, P g code := by
  generalize ht : Task.script code = t at h
  cases h with
  | block | node => cases ht
  | helper hget =>
    cases ht
    exact ⟨_, hreg.helper hget _ _ _⟩
  | binder hget =>
    cases ht
    exact ⟨_, hreg.binder hget _ _ _ _⟩
  | @registered name p hget =>
    cases p with
    | template => cases ht
    | script =>
      cases ht
      exact ⟨_, hreg.registered hget⟩

/-- Tasks in `Q`, and scripts that obey the rule `P` and are handed nothing but such tasks. -/
inductive Task.Within (P : Givens → Script String → Prop) (Q : Task → Prop) : Task → Prop
  | part {t : Task} : Q t → Within P Q t
  | script {code : Script String} {g : Givens} : P g code → (∀ t, g.Part t → Q t) →
      Within P Q (.script code)

theorem PassedOn.within (hreg : reg.EachScript P) {parts Q : Task → Prop}
    (hparts : ∀ t, parts t → Q t) {t : Task} (h : PassedOn reg parts t) : t.Within P Q := by
  cases h with
  | part h => exact .part (hparts t h)
  | helper hget hg => exact .script (hreg.helper hget _ _ _) fun t ht => hparts t (hg t ht)
  | binder hget hg => exact .script (hreg.binder hget _ _ _ _) fun t ht => hparts t (hg t ht)

/-- A script that hands on comes to no other nodes than it is handed. -/
theorem Task.Within.handsOn (hreg : reg.EachScript P)
    (hP : ∀ {g code}, P g code → code.HandsOn reg g) {p : Node → Prop} {code : Script String}
    (h : (Task.script code).Within P (Task.Of p)) :
    (∃ g, P g code) ∧ code.AsksOnly reg (Task.Within P (Task.Of p)) := by
  cases h with
  | part h => exact h.elim
  | script hcode hg =>
    exact ⟨⟨_, hcode⟩, (hP hcode).imp fun t ht => ht.within hreg fun t ht => ht.of hg⟩

end

/-- Host code that is meant to push scopes, bind variables and render must not undo the counting of
blocks: it leaves only levels that it has entered itself. -/
def Registry.LeavesOwn (reg : Registry) : Prop := reg.EachScript fun _ code => code.LeavesOwn 0

/-! ## A host -/

theorem letHelper_none (params : List Param) (otherwise : Option Block) :
    letHelper params none otherwise = .ask .openScope fun _ =>
      .ask (.bind "x" (.string "1")) fun _ => .ask .closeScope fun _ => .done "" := rfl

theorem letHelper_some (params : List Param) (b : Block) (otherwise : Option Block) :
    letHelper params (some b) otherwise = .ask .openScope fun _ =>
      .ask (.bind "x" (.string "1")) fun _ => .ask (.renderBlock b) fun result =>
        .ask .closeScope fun _ => Script.ok result := by
  have hok : ∀ result : Except RenderError String,
      ((Script.ok result).attempt.andThen fun r => Script.closeScope.andThen fun _ =>
        Script.ok r) = .ask .closeScope fun _ => Script.ok result := by
    rintro (e | out) <;> rfl
  simp only [← hok]
  rfl

/-- A rule holds for the host if it holds for its helper and for its script. -/
theorem eachScript_letHost {P : Givens → Script String → Prop}
    (hlet : ∀ params body otherwise, P ⟨params, body, otherwise⟩ (letHelper params body otherwise))
    (hvar : P {} (Script.text (.path "k"))) : letHost.EachScript P where
  helper hget := by
    simp only [letHost, Table.get?] at hget
    split at hget <;> cases hget
    exact hlet
  binder hget := by cases hget
  registered hget := by
    simp only [letHost, Table.get?] at hget
    split at hget
    · cases hget
    · split at hget <;> cases hget
      exact hvar

/-- The helper has nothing carried out but its body. -/
theorem asksOnly_letHelper {reg : Registry} {P : Task → Prop} {params : List Param}
    {body otherwise : Option Block} (hbody : ∀ b, body = some b → P (.block b)) :
    (letHelper params body otherwise).AsksOnly reg P := by
  cases body with
  | none =>
    rw [letHelper_none]
    exact Script.asksOnly_quiet trivial fun _ => Script.asksOnly_quiet trivial fun _ =>
      Script.asksOnly_quiet trivial fun _ => trivial
  | some b =>
    rw [letHelper_some]
    refine Script.asksOnly_quiet trivial fun _ => Script.asksOnly_quiet trivial fun _ => ⟨?_, ?_⟩
    · rintro _ ⟨⟩
      exact hbody b rfl
    · rintro (e | out) <;> exact Script.asksOnly_quiet trivial fun _ => trivial

theorem handsOn_letHelper (reg : Registry) (params : List Param) (body otherwise : Option Block) :
    (letHelper params body otherwise).HandsOn reg ⟨params, body, otherwise⟩ :=
  asksOnly_letHelper fun _ hb => .part (.part (.body hb))

/-- All that the helper requests is a scope with a variable, and its body. -/
theorem requestsOnly_letHelper {p : Request → Prop} {params : List Param}
    {body otherwise : Option Block} (hopen : p .openScope) (hbind : p (.bind "x" (.string "1")))
    (hclose : p .closeScope) (hbody : ∀ b, body = some b → p (.renderBlock b)) :
    (letHelper params body otherwise).RequestsOnly p := by
  cases body with
  | none =>
    rw [letHelper_none]
    exact ⟨hopen, fun _ => ⟨hbind, fun _ => ⟨hclose, fun _ => trivial⟩⟩⟩
  | some b =>
    rw [letHelper_some]
    refine ⟨hopen, fun _ => ⟨hbind, fun _ => ⟨hbody b rfl, ?_⟩⟩⟩
    rintro (e | out) <;> exact ⟨hclose, fun _ => trivial⟩

theorem raisesOnly_letHelper (E : RenderError → Prop) (params : List Param)
    (body otherwise : Option Block) : (letHelper params body otherwise).RaisesOnly E := by
  cases body with
  | none =>
    rw [letHelper_none]
    exact fun _ _ _ => trivial
  | some b =>
    rw [letHelper_some]
    rintro - - (e | out) -
    · exact .inl (.inr rfl)
    · trivial

theorem leavesOwn_letHelper (params : List Param) (body otherwise : Option Block) :
    (letHelper params body otherwise).LeavesOwn 0 := by
  cases body with
  | none =>
    rw [letHelper_none]
    simp [Script.LeavesOwn]
  | some b =>
    rw [letHelper_some]
    simp only [Script.LeavesOwn, reduceCtorEq, false_implies, true_and]
    rintro - - (e | out) - <;> trivial

theorem leavesOwn_letHost : letHost.LeavesOwn :=
  eachScript_letHost leavesOwn_letHelper ⟨by simp, fun _ => trivial⟩

end BraceTemplate
