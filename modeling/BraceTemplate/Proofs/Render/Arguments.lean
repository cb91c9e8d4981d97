import BraceTemplate.Proofs.Render.Variables
import BraceTemplate.Render.Evaluation
import Mathlib.Data.List.Perm.Basic

/-!
# The order of arguments

The arguments of a partial are bound one after the other, and each value is looked up where the
arguments before it are bound already. Where no value depends on another argument's key, two
arguments that stand next to each other may change places (`bindArguments_swap`), and so all of them
may stand in any order (`bindArguments_perm`, `render_boundPartial_perm`).
-/

namespace BraceTemplate

/-! ## Bindings in another order -/

/-- Entries of two keys may be inserted in any order. -/
theorem Table.insert_comm {α : Type} (t : Table α) {k l : String} (hkl : k ≠ l) (v w : α) :
    insert (insert t k v) l w = insert (insert t l w) k v := by
  -- an entry goes before the first key that is not below its own; the other does not move it
  induction t with
  | nil => grind [insert]
  | cons e rest ih => grind [insert]

namespace Context

variable {key : String}

theorem bind_comm (ctx : Context) {key' : String} (hkey : key ≠ key') (v w : Value) :
    (ctx.bind key v).bind key' w = (ctx.bind key' w).bind key v := by
  simp only [bind, Table.insert_comm ctx.innermost hkey]

/-- What is bound to a name shows only in the paths that start with it. -/
theorem get_bind (ctx : Context) {path : String} (hpath : firstSegment path ≠ key) (v : Value) :
    (ctx.bind key v).get path = ctx.get path := by
  rw [get, get, find?, find?, segments_eq_cons path]
  dsimp only
  rw [binding?_bind, if_neg (Ne.symm hpath)]
  rfl

end Context

/-! ## Independent arguments -/

/-- The value of the parameter is there without rendering, and whatever the key is bound to: it is a
quoted text, or a path that starts with another name. -/
def Param.Ignores (key : String) : Param → Prop
  | .path p => firstSegment p ≠ key
  | .node (.literal _) => True
  | .node _ => False

instance (key : String) : DecidablePred (Param.Ignores key)
  | .path p => inferInstanceAs (Decidable (firstSegment p ≠ key))
  | .node n =>
    match n with
    | .literal _ => .isTrue trivial
    | .content _ | .reference _ _ _ | .helper _ _ _ _ _ _ _ | .binder _ _ _ _ _ _
    | .plainPartial _ _ _ | .boundPartial _ _ _ | .block _ => .isFalse id

/-- Each argument binds another key, and its value ignores the key of the other one. -/
structure Argument.Independent (a b : Argument) : Prop where
  key : a.key ≠ b.key
  left : a.value.Ignores b.key
  right : b.value.Ignores a.key

theorem Argument.Independent.symm {a b : Argument} (h : a.Independent b) : b.Independent a :=
  ⟨h.key.symm, h.right, h.left⟩

namespace Evaluation

variable {call : Task → Rendering String}

theorem bindArguments_of_value {ctx : Context} {a : Argument} {v : Value}
    (h : value call a.value ctx = some (.ok v, ctx)) (rest : List Argument) :
    bindArguments call (a :: rest) ctx = bindArguments call rest (ctx.bind a.key v) := by
  obtain ⟨key, p⟩ := a
  change (value call p).andThen _ ctx = _
  rw [Rendering.andThen, show value call p ctx = _ from h]
  rfl

section
variable (hliteral : ∀ text, call (.node (.literal text)) = .succeed text)
include hliteral

theorem value_of_ignores {p : Param} {key : String} (hp : p.Ignores key) (ctx : Context) :
    ∃ v, value call p ctx = some (.ok v, ctx) ∧
      ∀ w, value call p (ctx.bind key w) = some (.ok v, ctx.bind key w) := by
  cases p with
  | path path =>
    refine ⟨ctx.get path, rfl, fun w => ?_⟩
    rw [← ctx.get_bind hp w]
    rfl
  | node n =>
    cases n with
    | literal text =>
      have hvalue : value call (.node (.literal text)) = .succeed (.string text) := by
        change (call (.node (.literal text))).andThen _ = _
        rw [hliteral]
        rfl
      exact ⟨.string text, by rw [hvalue]; rfl, fun w => by rw [hvalue]; rfl⟩
    | _ => exact hp.elim

/-- Two independent arguments may change places. -/
theorem bindArguments_swap {a b : Argument} (h : a.Independent b) (rest : List Argument) :
    bindArguments call (a :: b :: rest) = bindArguments call (b :: a :: rest) := by
  funext ctx
  obtain ⟨v, hv, hv'⟩ := value_of_ignores hliteral h.left ctx
  obtain ⟨w, hw, hw'⟩ := value_of_ignores hliteral h.right ctx
  calc bindArguments call (a :: b :: rest) ctx
      = bindArguments call rest ((ctx.bind a.key v).bind b.key w) := by
        rw [bindArguments_of_value hv, bindArguments_of_value (hw' v)]
    _ = bindArguments call rest ((ctx.bind b.key w).bind a.key v) := by
        rw [ctx.bind_comm h.key]
    _ = bindArguments call (b :: a :: rest) ctx := by
        rw [bindArguments_of_value hw, bindArguments_of_value (hv' w)]

/-- Arguments that are independent of each other may stand in any order. -/
theorem bindArguments_perm {args args' : List Argument} (hperm : args.Perm args')
    (hargs : args.Pairwise Argument.Independent) :
    bindArguments call args = bindArguments call args' := by
  induction hperm with
  | nil => rfl
  | cons a _ ih =>
    obtain ⟨key, p⟩ := a
    rw [bindArguments, bindArguments, ih hargs.of_cons]
  | swap a b rest =>
    exact bindArguments_swap hliteral (List.rel_of_pairwise_cons hargs List.mem_cons_self) rest
  | trans hperm _ ih ih' =>
    exact (ih hargs).trans (ih' ((hperm.pairwise_iff Argument.Independent.symm).1 hargs))

end

end Evaluation

/-- The arguments of a partial may stand in any order if their keys are distinct and each value is a
quoted text or a path that starts with none of the keys: from every context the partial renders to
the same result, and the same context is left. -/
theorem render_boundPartial_perm (reg : Registry) (name : String) {args args' : List Argument}
    (trim : Trim) (hperm : args.Perm args') (hkeys : (args.map Argument.key).Nodup)
    (hvalues : ∀ a ∈ args, ∀ key ∈ args.map Argument.key, a.value.Ignores key) (ctx : Context) :
    (Node.boundPartial name args' trim).render reg ctx =
      (Node.boundPartial name args trim).render reg ctx := by
  have hargs : args.Pairwise Argument.Independent := by
    refine (List.pairwise_map.1 hkeys).imp_of_mem fun {a b} ha hb hkey => ⟨hkey, ?_, ?_⟩
    · exact hvalues a ha b.key (List.mem_map_of_mem hb)
    · exact hvalues b hb a.key (List.mem_map_of_mem ha)
  obtain ⟨budget, hbudget⟩ := openCalls_eq
  let call := evaluate reg (budget + 1)
  have hrender : ∀ args, (Node.boundPartial name args trim).render reg =
      Evaluation.inArgumentScope (Evaluation.bindArguments call args >>= fun _ =>
        Evaluation.callPartial reg call name trim) := by
    intro args
    rw [Node.render, hbudget]
    rfl
  rw [hrender, hrender, Evaluation.bindArguments_perm (fun _ => rfl) hperm hargs]

/-- In the scope of the caller, with a key that shadows an entry of the data. -/
theorem render_boundPartial_perm_shadowed :
    let reg : Registry := { partials := [("p", .template [.reference .raw "x" .none,
      .reference .raw "y" .none])] }
    let args : List Argument := [.mk "x" (.literal "1"), .mk "y" (.path "z.0")]
    let args' : List Argument := [.mk "y" (.path "z.0"), .mk "x" (.literal "1")]
    let data : Value := .map [("y", .null), ("z", .list [.bool true])]
    let ctx : Context := { data, scoping := .shared }
    args.Perm args' ∧ (args.map Argument.key).Nodup ∧
      (∀ a ∈ args, ∀ key ∈ args.map Argument.key, a.value.Ignores key) ∧
      (Node.boundPartial "p" args' .none).render reg ctx =
        some (.ok "1true", (ctx.bind "x" (.string "1")).bind "y" (.bool true)) := by
  intro reg args args' data ctx
  have hperm : args.Perm args' := .swap _ _ _
  have hkeys : (args.map Argument.key).Nodup := by decide
  have hvalues : ∀ a ∈ args, ∀ key ∈ args.map Argument.key, a.value.Ignores key := by decide
  refine ⟨hperm, hkeys, hvalues, ?_⟩
  rw [render_boundPartial_perm reg "p" .none hperm hkeys hvalues ctx]
  rfl

end BraceTemplate
