import BraceTemplate.Proofs.Render.Names
import Mathlib.Logic.Relation

/-!
# Isolated and shared arguments

The arguments of a partial are bound in a scope of their own or in the caller's innermost one. As
long as no further partial binds arguments inside, the two runs differ only there: the first has a
scope `own` above the caller's, and the second has one scope with the bindings of both
(`Stacks`). Names stand for the same in the two, and what helpers open above stays in common, so
both come to the same result, and only what is left behind tells them apart
(`render_boundPartial_scoping`).
-/

namespace BraceTemplate

open Rendering

/-! ## Scripts that match their scopes -/

/-- Of `k` scopes that a script has opened and not closed, those that remain after the request. -/
def Request.scopes (k : Nat) : Request → Nat
  | openScope => k + 1
  | closeScope => k - 1
  | _ => k

/-- The script closes the scopes that it opens and no others, `k` of them open before it starts, and
never asks where arguments are bound. -/
def Script.ScopesOwn {α : Type} (k : Nat) : Script α → Prop
  | done _ => k = 0
  | fail _ => k = 0
  | ask r next =>
    r ≠ .scoping ∧ (r = .closeScope → 0 < k) ∧ ∀ a, (next a).ScopesOwn (r.scopes k)

/-- Host code opens and closes scopes in pairs, and never asks where arguments are bound. -/
def Registry.ScopesOwn (reg : Registry) : Prop := reg.EachScript fun _ code => code.ScopesOwn 0

/-! ## What a rendering may come to -/

/-- After some answers the script has the task carried out. -/
inductive Script.MayAsk {α : Type} (reg : Registry) (t : Task) : Script α → Prop
  | now {r : Request} {next : r.Answer → Script α} : r.Asks reg t → MayAsk reg t (.ask r next)
  | later {r : Request} {next : r.Answer → Script α} {a : r.Answer} :
      (next a).MayAsk reg t → MayAsk reg t (.ask r next)

inductive Task.Calls (reg : Registry) : Task → Task → Prop
  | item {b : Block} {n : Node} : n ∈ b → Calls reg (.block b) (.node n)
  | node {n : Node} {t : Task} : n.Calls reg t → Calls reg (.node n) t
  | script {code : Script String} {t : Task} : code.MayAsk reg t → Calls reg (.script code) t

def Task.BindsArguments : Task → Prop
  | node (.boundPartial _ _ _) => True
  | _ => False

theorem Script.asksOnly_mayAsk {α : Type} {reg : Registry} (s : Script α) :
    s.AsksOnly reg fun t => s.MayAsk reg t := by
  induction s with
  | done | fail => trivial
  | ask r next ih => exact ⟨fun t ht => .now ht, fun a => (ih a).imp fun t ht => .later ht⟩

theorem Script.MayAsk.of_asksOnly {α : Type} {reg : Registry} {P : Task → Prop} {t : Task}
    {s : Script α} (h : s.MayAsk reg t) (hs : s.AsksOnly reg P) : P t := by
  induction h with
  | now hr => exact hs.1 _ hr
  | later _ ih => exact ih (hs.2 _)

theorem Script.MayAsk.asks {α : Type} {reg : Registry} {t : Task} {s : Script α}
    (h : s.MayAsk reg t) : ∃ r : Request, r.Asks reg t := by
  induction h with
  | now hr => exact ⟨_, hr⟩
  | later _ ih => exact ih

theorem Task.Calls.ifScript {reg : Registry} {P : Script String → Prop}
    (hreg : reg.EachScript fun _ code => P code) {t t' : Task} (h : t.Calls reg t') :
    t'.IfScript P := by
  cases h with
  | item => trivial
  | node hc => exact hc.ifScript hreg
  | script hm =>
    obtain ⟨r, hr⟩ := hm.asks
    exact hr.ifScript hreg

/-! ## Two stacks of scopes -/

/-- The scope `merged` has the bindings of `own`, and those of `inner` for all other names. -/
def Scope.Over (own inner merged : Scope) : Prop :=
  ∀ key, Table.get? merged key = (Table.get? own key).or (Table.get? inner key)

/-- Below `k` scopes in common, the first stack has a scope above `inner`, and the second has one
scope with the bindings of these two. -/
inductive Stacks (inner : Scope) (outer : List Scope) : Nat → List Scope → List Scope → Prop
  | base {own merged : Scope} : own.Over inner merged →
      Stacks inner outer 0 (own :: inner :: outer) (merged :: outer)
  | push {k : Nat} {xs ys : List Scope} (s : Scope) : Stacks inner outer k xs ys →
      Stacks inner outer (k + 1) (s :: xs) (s :: ys)

section
variable {inner : Scope} {outer xs ys : List Scope} {k : Nat}

/-- A name has the same binding in both stacks. -/
theorem Stacks.binding (h : Stacks inner outer k xs ys) (name : String) :
    xs.findSome? (Table.get? · name) = ys.findSome? (Table.get? · name) := by
  induction h with
  | @base own merged hover =>
    have hname := hover name
    simp only [List.findSome?_cons]
    rw [hname]
    cases Table.get? own name with
    | none => cases Table.get? inner name <;> rfl
    | some v => rfl
  | push s _ ih => rw [List.findSome?_cons, List.findSome?_cons, ih]

theorem Scope.Over.insert {own merged : Scope} (h : own.Over inner merged) (key : String)
    (v : Value) : Scope.Over (Table.insert own key v) inner (Table.insert merged key v) := by
  intro name
  rw [Table.get?_insert, Table.get?_insert, h name]
  by_cases hname : key = name
  · rw [if_pos hname, if_pos hname]
    rfl
  · rw [if_neg hname, if_neg hname]

/-- Binding a name in the innermost scope of both keeps them in the relation. -/
theorem Stacks.insert {s s' : Scope} (h : Stacks inner outer k (s :: xs) (s' :: ys)) (key : String)
    (v : Value) :
    Stacks inner outer k (Table.insert s key v :: xs) (Table.insert s' key v :: ys) := by
  cases h with
  | base hover => exact .base (hover.insert key v)
  | push _ h => exact .push _ h

end

/-- The contexts of a run that isolates arguments and of one that shares them, both called from
`base`, with `k` scopes opened since. -/
inductive Context.Apart (base : Context) (k : Nat) : Context → Context → Prop
  | mk {depth : Nat} {s s' : Scope} {xs ys : List Scope} :
      Stacks base.innermost base.outer k (s :: xs) (s' :: ys) →
      Apart base k { base with innermost := s, outer := xs, depth := depth }
        { base with scoping := .shared, innermost := s', outer := ys, depth := depth }

section
variable {base ctx ctx' : Context} {k : Nat}

theorem consistent_apart (base : Context) (k : Nat) :
    (Simulation.of (Context.Apart base k)).Consistent where
  get := by
    rintro _ _ ⟨h⟩ path
    have hbinding := h.binding
    simp only [Context.get, Context.find?, Context.binding?, Context.scopes, hbinding]
  bind := by
    rintro _ _ ⟨h⟩ key v
    exact .mk (h.insert key v)
  enter := by
    rintro _ _ ⟨h⟩
    unfold Rendering.enter Context.enter
    dsimp only
    split_ifs
    · exact .together (.mk h) fun _ _ => id
    · exact .together (.mk h) fun _ _ => id
  leave := by
    rintro _ _ ⟨h⟩
    exact .mk h
  noHelper _ := id
  noPartial _ := id

theorem Context.Apart.openScope (h : Apart base k ctx ctx') :
    Apart base (k + 1) ctx.openScope ctx'.openScope := by
  obtain ⟨h⟩ := h
  exact .mk (.push [] h)

theorem Context.Apart.closeScope (h : Apart base (k + 1) ctx ctx') :
    Apart base k ctx.closeScope ctx'.closeScope := by
  obtain ⟨h⟩ := h
  cases h with
  | push s h =>
    -- below the scope that is dropped there is another one in both stacks
    cases h with
    | base hover => exact .mk (.base hover)
    | push s' h => exact .mk (.push s' h)

end

/-! ## Two runs -/

namespace Evaluation

variable {base : Context} {reg : Registry} {call : Task → Rendering String} {k : Nat}

/-- A request gets the same answer in both runs, and they stay apart alike. -/
theorem answers_apart {r : Request} (hscoping : r ≠ .scoping) (hclose : r = .closeScope → 0 < k)
    (hcall : ∀ t, r.Asks reg t → (call t).Agree (Context.Apart base k) (call t))
    {ctx ctx' : Context} (h : Context.Apart base k ctx ctx') :
    (Simulation.of (Context.Apart base (r.scopes k))).Answers r (answer reg call r ctx)
      (answer reg call r ctx') := by
  have hC := consistent_apart base k
  cases r with
  | get path =>
    change Simulation.Answers _ (.get path) (some (.ok (ctx.get path), ctx))
      (some (.ok (ctx'.get path), ctx'))
    rw [hC.get h]
    exact .together h fun _ _ => id
  | scoping => exact (hscoping rfl).elim
  | bind key v => exact .together (hC.bind h key v) fun _ _ => id
  | openScope => exact .together h.openScope fun _ _ => id
  | closeScope =>
    obtain ⟨k, rfl⟩ : ∃ m, k = m + 1 := Nat.exists_eq_add_one.2 (hclose rfl)
    exact .together h.closeScope fun _ _ => id
  | leave => exact .together (hC.leave h) fun _ _ => id
  | escape => exact .together h fun _ _ => id
  | _ => exact answers_of_calls hC.enter hcall id h

/-- A script with `j` open scopes of its own closes these, and in both runs it ends alike. -/
theorem run_apart {α : Type} {code : Script α} {j : Nat} (hcode : code.ScopesOwn j)
    (hask : code.AsksOnly reg fun t => ∀ k, (call t).Agree (Context.Apart base k) (call t))
    {ctx ctx' : Context} (h : Context.Apart base (k + j) ctx ctx') :
    (Simulation.of (Context.Apart base k)).Ends (run reg call code ctx)
      (run reg call code ctx') := by
  induction code generalizing j ctx ctx' with
  | done a =>
    obtain rfl : j = 0 := hcode
    exact .together h fun _ _ => id
  | fail e =>
    obtain rfl : j = 0 := hcode
    exact .together h fun _ _ => id
  | ask r next ih =>
    obtain ⟨hscoping, hclose, hnext⟩ := hcode
    -- what the script opens and closes lies above the `k` scopes that it was started in
    have hscopes : r.scopes (k + j) = k + r.scopes j := by
      cases r with
      | openScope => exact Nat.add_assoc _ _ _
      | closeScope => exact Nat.add_sub_assoc (hclose rfl) _
      | _ => rfl
    have hanswers := answers_apart hscoping (fun hr => Nat.lt_add_left k (hclose hr))
      (fun t ht => hask.1 t ht _) h
    rw [hscopes] at hanswers
    change Simulation.Ends _ ((answer reg call r).andThen (fun a => run reg call (next a)) ctx)
      ((answer reg call r).andThen (fun a => run reg call (next a)) ctx')
    unfold Rendering.andThen
    generalize answer reg call r ctx = x, answer reg call r ctx' = y at hanswers ⊢
    cases hanswers with
    | exhausted => exact .exhausted
    | @together a _ _ h _ => exact ih a (hnext a) (hask.2 a) h
    | spent hs => exact hs.elim
    | cut _ hc => exact hc.elim

end Evaluation

section
variable {reg : Registry} {base : Context}

/-- In both runs every task ends alike that comes to no further partial with arguments. -/
theorem agree_apart (hreg : reg.ScopesOwn) (budget : Nat) {t : Task}
    (ht : t.IfScript fun code => code.ScopesOwn 0)
    (hfree : ∀ t', Relation.ReflTransGen (Task.Calls reg) t t' → ¬ t'.BindsArguments) (k : Nat) :
    (evaluate reg budget t).Agree (Context.Apart base k) (evaluate reg budget t) := by
  induction budget generalizing t k with
  | zero => exact fun _ _ _ => .exhausted
  | succ budget ih =>
    have hC := consistent_apart base k
    -- for every `k`, since a script renders inside scopes of its own as well
    have hcall : ∀ t', t.Calls reg t' → ∀ k,
        (evaluate reg budget t').Agree (Context.Apart base k) (evaluate reg budget t') :=
      fun t' hc => ih (hc.ifScript hreg) fun t'' h => hfree t'' (.head hc h)
    cases t with
    | block b => exact hC.follows_block fun n hn => hcall _ (.item hn) k
    | node n =>
      refine hC.follows_node (.refl reg _) (fun t hc => hcall t (.node hc) k) ?_
      rintro ⟨name, args, trim, rfl⟩
      exact (hfree _ .refl trivial).elim
    | script code =>
      exact fun ctx ctx' h => Evaluation.run_apart ht
        (code.asksOnly_mayAsk.imp fun t hm => hcall t (.script hm)) h

end

/-! ## What a host that hands on comes to -/

section
variable {reg : Registry} {p : Node → Prop}

theorem Task.Calls.within (hreg : reg.EachScript (Script.HandsOn reg))
    (hp : ∀ n m, p n → n.LeadsTo reg m → p m) {t t' : Task}
    (ht : t.Within (Script.HandsOn reg) (Task.Of fun n => n.IsText ∨ p n)) (h : t.Calls reg t') :
    t'.Within (Script.HandsOn reg) (Task.Of fun n => n.IsText ∨ p n) := by
  cases h with
  | item hn =>
    obtain ⟨hb⟩ := ht
    exact .part (hb _ hn)
  | @node n t hc =>
    obtain ⟨hn⟩ := ht
    refine hc.within hreg fun m hm => ?_
    rcases hn with htext | hn
    · exact (htext.not_leadsTo hm).elim
    · exact hp n m hn hm
  | script hm => exact hm.of_asksOnly (ht.handsOn hreg id).2

/-- Where the host hands on what it is handed, a node comes to no partial with arguments if it leads
to none, through whatever templates. -/
theorem not_bindsArguments (hreg : reg.EachScript (Script.HandsOn reg)) {n : Node}
    (hnone : ∀ m, Relation.TransGen (Node.LeadsTo reg) n m → ¬ (Task.node m).BindsArguments)
    {t : Task} (h : Relation.TransGen (Task.Calls reg) (.node n) t) : ¬ t.BindsArguments := by
  have hwithin : t.Within (Script.HandsOn reg)
      (Task.Of fun m => m.IsText ∨ Relation.TransGen (Node.LeadsTo reg) n m) := by
    induction h with
    | single h =>
      cases h with
      | node hc => exact hc.within hreg fun m => .single
    | tail _ hc ih => exact hc.within hreg (fun _ _ => .tail) ih
  cases t with
  | block | script => exact id
  | node m =>
    obtain ⟨hm⟩ := hwithin
    rcases hm with htext | hm
    · cases m <;> first | exact id | exact htext.elim
    · exact hnone m hm

end

/-- A partial with arguments has the same result whether these are bound in a scope of its own or in
the caller's, if nothing that it comes to is such a partial again and the host matches its scopes.
From the one run the scopes are left as they were, and from the other, too, but for bindings that
the innermost scope has in addition or with another value. -/
theorem render_boundPartial_scoping {reg : Registry} (hreg : reg.ScopesOwn) {name : String}
    {args : List Argument} {trim : Trim}
    (hfree : ∀ t, Relation.TransGen (Task.Calls reg) (.node (.boundPartial name args trim)) t →
      ¬ t.BindsArguments) {ctx : Context} (hctx : ctx.scoping = .isolated) :
    let n := Node.boundPartial name args trim
    let shared := { ctx with scoping := .shared }
    n.render reg ctx = none ∧ n.render reg shared = none ∨
      ∃ result depth innermost, n.render reg ctx = some (result, { ctx with depth }) ∧
        n.render reg shared = some (result, { shared with depth, innermost }) ∧
        ∃ own, Scope.Over own ctx.innermost innermost := by
  intro n shared
  obtain ⟨budget, hbudget⟩ : ∃ budget, openCalls = budget + 1 := ⟨openCalls - 1, by decide⟩
  have hrender : n.render reg = Evaluation.node reg (evaluate reg budget) n := by
    rw [Node.render, hbudget]
    rfl
  let inside := Evaluation.bindArguments (evaluate reg budget) args >>= fun _ =>
    Evaluation.callPartial reg (evaluate reg budget) name trim
  have hinside : inside.Agree (Context.Apart ctx 0) inside :=
    (consistent_apart ctx 0).follows_boundPartial rfl fun t hc =>
      agree_apart hreg budget (hc.ifScript hreg) (fun t' h => hfree t' (.head' (.node hc) h)) 0
  have hisolated : n.render reg ctx = inside.andFinally .closeScope ctx.openScope := by
    rw [hrender]
    change Evaluation.inArgumentScope inside ctx = _
    rw [Evaluation.inArgumentScope, hctx]
  have hshared : n.render reg shared = inside shared := by
    rw [hrender]
    rfl
  -- the new scope is still empty, so over the caller's it changes nothing
  have hstart : Context.Apart ctx 0 ctx.openScope shared := .mk (.base fun _ => rfl)
  rw [hisolated, hshared, andFinally]
  rcases hinside.ends hstart with ⟨hleft, hright⟩ | ⟨result, _, _, hleft, hright, ⟨hstacks⟩⟩
  · exact .inl ⟨by rw [hleft], hright⟩
  · rw [hleft, hright]
    cases hstacks with
    | base hover => exact .inr ⟨result, _, _, rfl, rfl, _, hover⟩

theorem scopesOwn_letHelper (params : List Param) (body otherwise : Option Block) :
    (letHelper params body otherwise).ScopesOwn 0 := by
  cases body with
  | none =>
    rw [letHelper_none]
    exact ⟨nofun, nofun, fun _ => ⟨nofun, nofun, fun _ => ⟨nofun, fun _ => Nat.one_pos,
      fun _ => rfl⟩⟩⟩
  | some b =>
    rw [letHelper_some]
    refine ⟨nofun, nofun, fun _ => ⟨nofun, nofun, fun _ => ⟨nofun, nofun, ?_⟩⟩⟩
    rintro (e | out) <;> exact ⟨nofun, fun _ => Nat.one_pos, fun _ => rfl⟩

/-- A partial leads to the template of its name only, and from there to itself without arguments. -/
theorem leadsTo_loopHost {n m : Node} (hn : n.partialName? = some "loop" ∧ n.children = [] ∨
    n = loopNode "let") (h : n.LeadsTo loopHost m) :
    m = loopNode "let" ∨ m = .plainPartial "loop" [] .none := by
  rcases hn with ⟨hname, hchildren⟩ | rfl
  · cases h with
    | child hm =>
      rw [hchildren] at hm
      cases hm
    | template hname' hget hm =>
      obtain rfl := Option.some.inj (hname.symm.trans hname')
      cases hget
      exact .inl (List.mem_singleton.1 hm)
  · cases h with
    | child hm => exact .inr (List.mem_singleton.1 hm)
    | template hname => cases hname

theorem render_boundPartial_loopHost :
    let n : Node := .boundPartial "loop" [.mk "k" (.path "x")] .none
    loopHost.ScopesOwn ∧
      (∀ t, Relation.TransGen (Task.Calls loopHost) (.node n) t → ¬ t.BindsArguments) ∧
      ∃ result depth innermost, n.render loopHost {} = some (result, { depth }) ∧
        n.render loopHost { scoping := .shared } =
          some (result, { scoping := .shared, depth, innermost }) ∧
        ∃ own, Scope.Over own [] innermost := by
  intro n
  have hreg : loopHost.ScopesOwn := eachScript_loopingHost scopesOwn_letHelper
  have hleads : ∀ m, Relation.TransGen (Node.LeadsTo loopHost) n m →
      m = loopNode "let" ∨ m = .plainPartial "loop" [] .none := by
    intro m h
    induction h with
    | single h => exact leadsTo_loopHost (.inl ⟨rfl, rfl⟩) h
    | tail _ h ih =>
      rcases ih with rfl | rfl
      · exact leadsTo_loopHost (.inr rfl) h
      · exact leadsTo_loopHost (.inl ⟨rfl, rfl⟩) h
  have hfree : ∀ t, Relation.TransGen (Task.Calls loopHost) (.node n) t → ¬ t.BindsArguments := by
    refine fun t => not_bindsArguments (rendersHanded_loopHost.imp fun _ _ h => h.1) fun m hm => ?_
    rcases hleads m hm with rfl | rfl <;> exact id
  have hctx : ({} : Context).scoping = .isolated := rfl
  obtain ⟨_, _, hsome⟩ := (node_ends rendersHanded_loopHost {} n).returns (by decide)
  refine ⟨hreg, hfree, ?_⟩
  rcases render_boundPartial_scoping hreg hfree hctx with ⟨hnone, -⟩ | hboth
  · cases hnone.symm.trans hsome
  · exact hboth

end BraceTemplate
