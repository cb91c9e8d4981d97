import BraceTemplate.Proofs.Render.Simulation
import Mathlib.Data.List.Forall2

/-!
# Templates that render alike

Two templates that differ in some of their nodes render alike if these nodes do, but only as long as
no helper tells them apart: from trees in the relation it is to make the same requests, of trees in
the relation (`Registry.Respects`). A uniform helper, which does not look into the trees that it is
handed, does so whichever relation that is (`Registry.Uniform`). Then it is enough to look at the
nodes that differ, with what they call taken to render alike (`evaluate_alike`).
-/

namespace BraceTemplate

/-! ## Relations of trees -/

section
variable (R : Node → Node → Prop)

inductive Param.Alike : Param → Param → Prop
  | path (path : String) : Alike (.path path) (.path path)
  | node {n n' : Node} : R n n' → Alike (.node n) (.node n')

inductive Argument.Alike : Argument → Argument → Prop
  | mk {key : String} {p p' : Param} : p.Alike R p' → Alike (.mk key p) (.mk key p')

/-- The nodes do the same but for the nodes below them, which are in the relation. The markers on
the tags of a block and the arguments of a plain partial are not looked at. -/
inductive Node.Alike : Node → Node → Prop
  | content (text : String) : Alike (.content text) (.content text)
  | literal (text : String) : Alike (.literal text) (.literal text)
  | reference (output : Output) (path : String) (trim : Trim) :
      Alike (.reference output path trim) (.reference output path trim)
  | helper {output : Output} {name : String} {params params' : List Param}
      {body body' otherwise otherwise' : Option Block} {trim trim' : Trim}
      {marks marks' : Option TrimMarks} :
      List.Forall₂ (Param.Alike R) params params' → Option.Rel (List.Forall₂ R) body body' →
      Option.Rel (List.Forall₂ R) otherwise otherwise' → (body = none → trim = trim') →
      Alike (.helper output name params body otherwise trim marks)
        (.helper output name params' body' otherwise' trim' marks')
  | binder {name : String} {params params' : List Param} {names : List String}
      {body body' : Block} {otherwise otherwise' : Option Block} {marks marks' : TrimMarks} :
      List.Forall₂ (Param.Alike R) params params' → List.Forall₂ R body body' →
      Option.Rel (List.Forall₂ R) otherwise otherwise' →
      Alike (.binder name params names body otherwise marks)
        (.binder name params' names body' otherwise' marks')
  | plainPartial {name : String} {args args' : List Argument} {trim : Trim} :
      Alike (.plainPartial name args trim) (.plainPartial name args' trim)
  | boundPartial {name : String} {args args' : List Argument} {trim : Trim} :
      List.Forall₂ (Argument.Alike R) args args' →
      Alike (.boundPartial name args trim) (.boundPartial name args' trim)
  | block {b b' : Block} : List.Forall₂ R b b' → Alike (.block b) (.block b')

/-- The scripts make the same requests after the same answers, of trees in the relation, and end
alike. -/
inductive Script.Alike {α : Type} : Script α → Script α → Prop
  | done (a : α) : Alike (.done a) (.done a)
  | fail (e : RenderError) : Alike (.fail e) (.fail e)
  | same {r : Request} {next next' : r.Answer → Script α} :
      (∀ a, Alike (next a) (next' a)) → Alike (.ask r next) (.ask r next')
  | renderBlock {b b' : Block} {next next' : Except RenderError String → Script α} :
      List.Forall₂ R b b' → (∀ a, Alike (next a) (next' a)) →
      Alike (.ask (.renderBlock b) next) (.ask (.renderBlock b') next')
  | renderNode {n n' : Node} {next next' : Except RenderError String → Script α} :
      R n n' → (∀ a, Alike (next a) (next' a)) →
      Alike (.ask (.renderNode n) next) (.ask (.renderNode n') next')
  | callHelper {name : String} {params params' : List Param}
      {body body' otherwise otherwise' : Option Block}
      {next next' : Option (Except RenderError String) → Script α} :
      List.Forall₂ (Param.Alike R) params params' → Option.Rel (List.Forall₂ R) body body' →
      Option.Rel (List.Forall₂ R) otherwise otherwise' → (∀ a, Alike (next a) (next' a)) →
      Alike (.ask (.callHelper name params body otherwise) next)
        (.ask (.callHelper name params' body' otherwise') next')
  | callBinder {name : String} {params params' : List Param} {names : List String}
      {body body' : Block} {otherwise otherwise' : Option Block}
      {next next' : Option (Except RenderError String) → Script α} :
      List.Forall₂ (Param.Alike R) params params' → List.Forall₂ R body body' →
      Option.Rel (List.Forall₂ R) otherwise otherwise' → (∀ a, Alike (next a) (next' a)) →
      Alike (.ask (.callBinder name params names body otherwise) next)
        (.ask (.callBinder name params' names body' otherwise') next')

inductive Partial.Alike : Partial → Partial → Prop
  | template {root root' : Block} : List.Forall₂ R root root' →
      Alike (.template root) (.template root')
  | script (code : Script String) : Alike (.script code) (.script code)

inductive Task.Alike : Task → Task → Prop
  | block {b b' : Block} : List.Forall₂ R b b' → Alike (.block b) (.block b')
  | node {n n' : Node} : R n n' → Alike (.node n) (.node n')
  | script {code code' : Script String} : code.Alike R code' → Alike (.script code) (.script code')

/-- The registries hold the same host code, and templates whose nodes are in the relation. -/
structure Registry.Alike (reg reg' : Registry) : Prop where
  helpers : reg'.helpers = reg.helpers
  binders : reg'.binders = reg.binders
  escape : reg'.escape = reg.escape
  partials : ∀ name, Option.Rel (Partial.Alike R) (Table.get? reg.partials name)
    (Table.get? reg'.partials name)

end

/-- From trees in the relation the helpers and binders make the same requests, of trees in the
relation. -/
structure Registry.Respects (R : Node → Node → Prop) (reg : Registry) : Prop where
  helper : ∀ {name h}, Table.get? reg.helpers name = some h →
    ∀ {params params' body body' otherwise otherwise'},
    List.Forall₂ (Param.Alike R) params params' → Option.Rel (List.Forall₂ R) body body' →
    Option.Rel (List.Forall₂ R) otherwise otherwise' →
    (h params body otherwise).Alike R (h params' body' otherwise')
  binder : ∀ {name h}, Table.get? reg.binders name = some h →
    ∀ {params params' names body body' otherwise otherwise'},
    List.Forall₂ (Param.Alike R) params params' → List.Forall₂ R body body' →
    Option.Rel (List.Forall₂ R) otherwise otherwise' →
    (h params names body otherwise).Alike R (h params' names body' otherwise')

/-- The helpers and binders do nothing with the trees that they are handed but to have them
rendered or to hand them on: they cannot tell trees in a relation from each other. They may make
nodes of their own, so the relation is to hold of a node and itself. -/
structure Registry.Uniform (reg : Registry) : Prop where
  helper : ∀ {R : Node → Node → Prop}, (∀ n, R n n) →
    ∀ {name h}, Table.get? reg.helpers name = some h →
    ∀ {params params' body body' otherwise otherwise'},
    List.Forall₂ (Param.Alike R) params params' → Option.Rel (List.Forall₂ R) body body' →
    Option.Rel (List.Forall₂ R) otherwise otherwise' →
    (h params body otherwise).Alike R (h params' body' otherwise')
  binder : ∀ {R : Node → Node → Prop}, (∀ n, R n n) →
    ∀ {name h}, Table.get? reg.binders name = some h →
    ∀ {params params' names body body' otherwise otherwise'},
    List.Forall₂ (Param.Alike R) params params' → List.Forall₂ R body body' →
    Option.Rel (List.Forall₂ R) otherwise otherwise' →
    (h params names body otherwise).Alike R (h params' names body' otherwise')

theorem Registry.Uniform.respects {reg : Registry} (h : reg.Uniform) {R : Node → Node → Prop}
    (hR : ∀ n, R n n) : reg.Respects R where
  helper := h.helper hR
  binder := h.binder hR

theorem rel_self {α : Type} {r : α → α → Prop} (hr : ∀ a, r a a) (x : Option α) :
    Option.Rel r x x := by
  cases x with
  | none => exact .none
  | some a => exact .some (hr a)

section
variable {R : Node → Node → Prop} (hR : ∀ n, R n n)
include hR

theorem alike_block_refl (b : Block) : List.Forall₂ R b b := List.forall₂_same.2 fun n _ => hR n

theorem alike_body_refl (b : Option Block) : Option.Rel (List.Forall₂ R) b b :=
  rel_self (alike_block_refl hR) b

theorem Param.Alike.refl (p : Param) : p.Alike R p := by
  cases p with
  | path path => exact .path path
  | node n => exact .node (hR n)

theorem alike_params_refl (params : List Param) : List.Forall₂ (Param.Alike R) params params :=
  List.forall₂_same.2 fun p _ => .refl hR p

theorem Argument.Alike.refl (a : Argument) : a.Alike R a := by
  obtain ⟨key, p⟩ := a
  exact .mk (.refl hR p)

theorem Node.Alike.refl (n : Node) : n.Alike R n := by
  cases n with
  | content text => exact .content text
  | literal text => exact .literal text
  | reference output path trim => exact .reference output path trim
  | helper output name params body otherwise trim marks =>
    exact .helper (alike_params_refl hR params) (alike_body_refl hR body)
      (alike_body_refl hR otherwise) fun _ => rfl
  | binder name params names body otherwise marks =>
    exact .binder (alike_params_refl hR params) (alike_block_refl hR body)
      (alike_body_refl hR otherwise)
  | plainPartial => exact .plainPartial
  | boundPartial name args trim =>
    exact .boundPartial (List.forall₂_same.2 fun a _ => .refl hR a)
  | block b => exact .block (alike_block_refl hR b)

omit hR in
theorem Script.Alike.refl {α : Type} (code : Script α) : code.Alike R code := by
  induction code with
  | done a => exact .done a
  | fail e => exact .fail e
  | ask r next ih => exact .same ih

theorem Partial.Alike.refl (p : Partial) : p.Alike R p := by
  cases p with
  | template root => exact .template (alike_block_refl hR root)
  | script code => exact .script code

theorem Registry.Alike.refl (reg : Registry) : reg.Alike R reg where
  helpers := rfl
  binders := rfl
  escape := rfl
  partials _ := rel_self (.refl hR) _

omit hR in
theorem Partial.Alike.task {p p' : Partial} (h : p.Alike R p') : p.task.Alike R p'.task := by
  cases h with
  | template hroot => exact .block hroot
  | script code => exact .script (.refl code)

end

namespace Evaluation

variable {R : Node → Node → Prop} {reg reg' : Registry} {call call' : Task → Rendering String}

section
variable (hreg : reg.Respects R) (h : reg.Alike R reg')
variable (hcall : ∀ {t t'}, t.Alike R t' → call t = call' t')

/-! ## Nodes -/

section
include hcall

theorem value_alike {p p' : Param} (hp : p.Alike R p') : value call p = value call' p' := by
  cases hp with
  | path => rfl
  | node hn => simp only [value, hcall (.node hn)]

theorem text_alike {p p' : Param} (hp : p.Alike R p') : text call p = text call' p' := by
  cases hp with
  | path => rfl
  | node hn => exact hcall (.node hn)

theorem bindArguments_alike {args args' : List Argument}
    (hargs : List.Forall₂ (Argument.Alike R) args args') :
    bindArguments call args = bindArguments call' args' := by
  induction hargs with
  | nil => rfl
  | cons harg _ ih =>
    obtain ⟨hp⟩ := harg
    simp only [bindArguments, value_alike hcall hp, ih]

theorem items_alike {b b' : Block} (hb : List.Forall₂ R b b') : items call b = items call' b' := by
  induction hb with
  | nil => rfl
  | cons hn _ ih => simp only [items, hcall (.node hn), ih]

include h

theorem missingHelper_alike (name : String) :
    missingHelper reg call name = missingHelper reg' call' name := by
  simp only [missingHelper, h.helpers]
  cases hget : Table.get? reg.helpers Registry.fallback with
  | none => rfl
  | some f => exact hcall (.script (.refl _))

theorem callPartial_alike (name : String) (trim : Trim) :
    callPartial reg call name trim = callPartial reg' call' name trim := by
  have hfound := h.partials name
  unfold callPartial
  generalize Table.get? reg.partials name = x, Table.get? reg'.partials name = y at hfound ⊢
  cases hfound with
  | none => rfl
  | some hp => simp only [hcall hp.task]

end

section
include hreg h hcall

theorem callHelper_alike {name : String} {params params' : List Param}
    {body body' otherwise otherwise' : Option Block}
    (hparams : List.Forall₂ (Param.Alike R) params params')
    (hbody : Option.Rel (List.Forall₂ R) body body')
    (hother : Option.Rel (List.Forall₂ R) otherwise otherwise') :
    callHelper reg call name params body otherwise =
      callHelper reg' call' name params' body' otherwise' := by
  simp only [callHelper, h.helpers, missingHelper_alike h hcall]
  cases hget : Table.get? reg.helpers name with
  | none => rfl
  | some f => exact hcall (.script (hreg.helper hget hparams hbody hother))

theorem callBinder_alike {name : String} {params params' : List Param} {names : List String}
    {body body' : Block} {otherwise otherwise' : Option Block}
    (hparams : List.Forall₂ (Param.Alike R) params params')
    (hbody : List.Forall₂ R body body')
    (hother : Option.Rel (List.Forall₂ R) otherwise otherwise') :
    callBinder reg call name params names body otherwise =
      callBinder reg' call' name params' names body' otherwise' := by
  simp only [callBinder, h.binders, missingHelper_alike h hcall]
  cases hget : Table.get? reg.binders name with
  | none => rfl
  | some f => exact hcall (.script (hreg.binder hget hparams hbody hother))

/-- Nodes that are alike render alike if what they call does. -/
theorem node_alike {n n' : Node} (hn : n.Alike R n') : node reg call n = node reg' call' n' := by
  cases hn with
  | content | literal => rfl
  | reference output path trim =>
    simp only [node, Registry.emit_congr h.escape, h.helpers]
    cases hget : Table.get? reg.helpers path with
    | none => rfl
    | some f => simp only [hcall (.script (.refl (f [] none none)))]
  | helper hparams hbody hother htrim =>
    simp only [node, Registry.emit_congr h.escape,
      callHelper_alike hreg h hcall hparams hbody hother]
    cases hbody with
    | none => rw [htrim rfl]
    | some => rfl
  | binder hparams hbody hother => exact callBinder_alike hreg h hcall hparams hbody hother
  | plainPartial => exact callPartial_alike h hcall _ _
  | boundPartial hargs =>
    simp only [node, bindArguments_alike hcall hargs, callPartial_alike h hcall]
  | block hb => exact hcall (.block hb)

/-! ## Scripts -/

omit hreg in
theorem answer_same (hR : ∀ n, R n n) (r : Request) : answer reg call r = answer reg' call' r := by
  cases r with
  | renderBlock b => simp only [answer, hcall (.block (alike_block_refl hR b))]
  | renderNode n => simp only [answer, hcall (.node (hR n))]
  | escape text => simp only [answer, h.escape]
  | callHelper name params body otherwise =>
    simp only [answer, h.helpers, hcall (.script (.refl _))]
  | callBinder name params names body otherwise =>
    simp only [answer, h.binders, hcall (.script (.refl _))]
  | callPartial name =>
    have hfound := h.partials name
    simp only [answer]
    generalize Table.get? reg.partials name = x, Table.get? reg'.partials name = y at hfound ⊢
    cases hfound with
    | none => rfl
    | some hp => simp only [hcall hp.task]
  | _ => rfl

/-- Scripts that are alike run alike. -/
theorem run_alike (hR : ∀ n, R n n) {α : Type} {code code' : Script α}
    (hcode : code.Alike R code') : run reg call code = run reg' call' code' := by
  induction hcode with
  | done | fail => rfl
  -- the same request may still name a template, which differs in the two registries
  | same _ ih => simp only [run, answer_same h hcall hR, ih]
  | renderBlock hb _ ih => simp only [run, answer, hcall (.block hb), ih]
  | renderNode hn _ ih => simp only [run, answer, hcall (.node hn), ih]
  | @callHelper name params params' body body' otherwise otherwise' _ _ hp hb ho _ ih =>
    simp only [run, answer, h.helpers, ih]
    cases hget : Table.get? reg.helpers name with
    | none => rfl
    | some f => simp only [hcall (.script (hreg.helper hget hp hb ho))]
  | @callBinder name params params' names body body' otherwise otherwise' _ _ hp hb ho _ ih =>
    simp only [run, answer, h.binders, ih]
    cases hget : Table.get? reg.binders name with
    | none => rfl
    | some f => simp only [hcall (.script (hreg.binder hget hp hb ho))]

end
end

end Evaluation

/-- Where the host respects the relation, and nodes in the relation render alike if what they call
does, everything made of such nodes renders alike. -/
theorem evaluate_alike {R : Node → Node → Prop} {reg reg' : Registry} (hreg : reg.Respects R)
    (h : reg.Alike R reg') (hR : ∀ n, R n n)
    (hnode : ∀ call call' : Task → Rendering String,
      (∀ {t t'}, t.Alike R t' → call t = call' t') →
      ∀ n n', R n n' → Evaluation.node reg call n = Evaluation.node reg' call' n')
    (budget : Nat) {t t' : Task} (ht : t.Alike R t') :
    evaluate reg budget t = evaluate reg' budget t' := by
  induction budget generalizing t t' with
  | zero => rfl
  | succ budget ih =>
    cases ht with
    | block hb =>
      simp only [evaluate, Evaluation.step, Evaluation.block, Evaluation.items_alike ih hb]
    | node hn => exact hnode _ _ ih _ _ hn
    | script hcode => exact Evaluation.run_alike hreg h ih hR hcode

end BraceTemplate
