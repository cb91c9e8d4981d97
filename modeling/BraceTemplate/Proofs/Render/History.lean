import BraceTemplate.Proofs.Value.Path
import BraceTemplate.Render.Context
import Mathlib.Data.List.Basic
import Mathlib.Data.List.Induction

/-!
# Names over a history

What a name stands for is said here in terms of all that has been done to a context, without the
tables that the context keeps: a binding counts as long as the scope it was made in is open, the
innermost of these scopes decides, and in it the latest binding (`History.Binds`). `Records` ties
a scope of the context to the history, `recorded_after` carries this through every history, and
`get_after` reads off what a path stands for.
-/

namespace BraceTemplate

/-! ## Histories -/

/-- What can be done to the scopes and the depth of a context. -/
inductive Action where
  | bind (key : String) (value : Value)
  | openScope
  | closeScope
  | enter
  | leave

/-- What has been done to a context, the latest last. -/
abbrev History := List Action

/-- Does one thing to a context. A level that may not be entered leaves it as it is. -/
def Context.act (ctx : Context) : Action → Context
  | .bind key value => ctx.bind key value
  | .openScope => ctx.openScope
  | .closeScope => ctx.closeScope
  | .enter =>
    match ctx.enter with
    | .ok ctx' => ctx'
    | .error _ => ctx
  | .leave => ctx.leave

def Context.after (ctx : Context) (h : History) : Context := h.foldl Context.act ctx

/-- Of `k` scopes that are open inside the outermost one, how many there are after an action. The
outermost scope cannot be closed. -/
def Action.scopes (k : Nat) : Action → Nat
  | .openScope => k + 1
  | .closeScope => k - 1
  | _ => k

namespace History

/-- The number of scopes that are open inside the outermost one. -/
def level (h : History) : Nat := h.foldl Action.scopes 0

/-- After `before`, the history binds the key, and the scope this is made in is open ever since. -/
def Standing (h before : History) (key : String) (value : Value) : Prop :=
  ∃ since, h = before ++ .bind key value :: since ∧
    ∀ part, part <+: since → level before ≤ level (before ++ .bind key value :: part)

/-- The key is bound to the value: in the innermost open scope in which it was bound, this is what
it was bound to last. -/
def Binds (h : History) (key : String) (value : Value) : Prop :=
  ∃ before, h.Standing before key value ∧ ∀ before' value', h.Standing before' key value' →
    level before' < level before ∨
      level before' = level before ∧ before'.length ≤ before.length

def Unbound (h : History) (key : String) : Prop := ∀ before value, ¬ h.Standing before key value

/-- As many scopes are closed as are opened, and none before it was opened. -/
inductive Matched : History → Prop
  | nil : Matched []
  | bind {key : String} {value : Value} {h : History} : Matched h → Matched (.bind key value :: h)
  | enter {h : History} : Matched h → Matched (.enter :: h)
  | leave {h : History} : Matched h → Matched (.leave :: h)
  | scope {inside h : History} : Matched inside → Matched h →
      Matched (.openScope :: inside ++ .closeScope :: h)

variable {h before before' : History} {a : Action} {key : String} {v v' : Value} {ℓ : Nat}

theorem level_snoc (h : History) (a : Action) : level (h ++ [a]) = a.scopes (level h) := by
  rw [level, level, List.foldl_append]
  rfl

theorem standing_iff_of_snoc : Standing (h ++ [a]) before key v ↔
    before = h ∧ a = .bind key v ∨ h.Standing before key v ∧ level before ≤ level (h ++ [a]) := by
  constructor
  · rintro ⟨since, heq, hopen⟩
    rcases List.eq_nil_or_concat' since with rfl | ⟨since, b, rfl⟩
    · obtain ⟨rfl, rfl⟩ := List.append_singleton_inj.1 heq
      exact .inl ⟨rfl, rfl⟩
    · have hsplit : before ++ .bind key v :: (since ++ [b]) =
          before ++ .bind key v :: since ++ [b] := by simp
      obtain ⟨rfl, rfl⟩ := List.append_singleton_inj.1 (heq.trans hsplit)
      refine .inr ⟨⟨since, rfl, fun part hpart => ?_⟩, ?_⟩
      · exact hopen part (hpart.trans (List.prefix_append _ _))
      · rw [← hsplit]
        exact hopen _ List.prefix_rfl
  · rintro (⟨rfl, rfl⟩ | ⟨⟨since, rfl, hopen⟩, hle⟩)
    · refine ⟨[], rfl, fun part hpart => ?_⟩
      obtain rfl := List.prefix_nil.1 hpart
      rw [level_snoc]
      exact Nat.le_refl _
    · refine ⟨since ++ [a], by simp, fun part hpart => ?_⟩
      rcases List.prefix_concat_iff.1 hpart with rfl | hpart
      · simpa using hle
      · exact hopen part hpart

theorem Standing.level_le (hs : h.Standing before key v) : level before ≤ level h := by
  obtain ⟨since, rfl, hopen⟩ := hs
  exact hopen since List.prefix_rfl

theorem Binds.unique (hb : h.Binds key v) (hb' : h.Binds key v') : v = v' := by
  obtain ⟨before, hs, hlast⟩ := hb
  obtain ⟨before', hs', hlast'⟩ := hb'
  have hlength : before.length = before'.length := by
    have := hlast _ _ hs'
    have := hlast' _ _ hs
    omega
  obtain ⟨since, rfl, -⟩ := hs
  obtain ⟨since', heq, -⟩ := hs'
  obtain ⟨-, heq⟩ := List.append_inj heq hlength
  cases heq
  rfl

/-! ## Scopes -/

/-- The scope holds, for each name, the latest of the bindings made `ℓ` scopes inside the outermost
one in the scope that is now open there. -/
def Records (h : History) (ℓ : Nat) (s : Scope) : Prop :=
  ∀ key, match Table.get? s key with
    | none => ∀ before v, h.Standing before key v → level before ≠ ℓ
    | some v => ∃ before, h.Standing before key v ∧ level before = ℓ ∧
        ∀ before' v', h.Standing before' key v' → level before' = ℓ →
          before'.length ≤ before.length

/-- Each scope of a list, the outermost last, holds what the history says of its level. -/
def Recorded (h : History) : List Scope → Prop
  | [] => True
  | s :: outer => h.Records outer.length s ∧ h.Recorded outer

variable {s : Scope} {scopes : List Scope}

/-- What is done elsewhere leaves a scope as it is, unless it closes it. -/
theorem Records.snoc (hs : h.Records ℓ s) (hopen : ℓ ≤ level (h ++ [a]))
    (helsewhere : level h = ℓ → ∀ key v, a ≠ .bind key v) : Records (h ++ [a]) ℓ s := by
  have hsame : ∀ {before key v}, level before = ℓ →
      (Standing (h ++ [a]) before key v ↔ h.Standing before key v) := by
    rintro before key v rfl
    rw [standing_iff_of_snoc]
    refine ⟨?_, fun hs => .inr ⟨hs, hopen⟩⟩
    rintro (⟨rfl, rfl⟩ | ⟨hs, -⟩)
    · exact (helsewhere rfl key v rfl).elim
    · exact hs
  intro key
  have hkey := hs key
  cases hget : Table.get? s key with
  | none =>
    rw [hget] at hkey
    exact fun before v hs hlevel => hkey before v ((hsame hlevel).1 hs) hlevel
  | some v =>
    rw [hget] at hkey
    obtain ⟨before, hstand, hlevel, hlast⟩ := hkey
    exact ⟨before, (hsame hlevel).2 hstand, hlevel,
      fun before' v' hs hlevel' => hlast before' v' ((hsame hlevel').1 hs) hlevel'⟩

theorem Recorded.snoc (hs : h.Recorded scopes) (hopen : scopes.length ≤ level (h ++ [a]) + 1)
    (helsewhere : level h < scopes.length → ∀ key v, a ≠ .bind key v) :
    Recorded (h ++ [a]) scopes := by
  induction scopes with
  | nil => trivial
  | cons s outer ih =>
    rw [List.length_cons] at hopen helsewhere
    exact ⟨hs.1.snoc (by omega) fun hlevel => helsewhere (by omega),
      ih hs.2 (by omega) fun hlevel => helsewhere (by omega)⟩

theorem Records.bind (hs : h.Records (level h) s) (key : String) (v : Value) :
    Records (h ++ [.bind key v]) (level h) (Table.insert s key v) := by
  have hlevel : level (h ++ [.bind key v]) = level h := level_snoc h _
  intro name
  rw [Table.get?_insert]
  by_cases hname : key = name
  · subst hname
    rw [if_pos rfl]
    refine ⟨h, standing_iff_of_snoc.2 (.inl ⟨rfl, rfl⟩), rfl, fun before' v' hs _ => ?_⟩
    rcases standing_iff_of_snoc.1 hs with ⟨rfl, -⟩ | ⟨⟨since, rfl, -⟩, -⟩
    · exact Nat.le_refl _
    · simp
  · rw [if_neg hname]
    have hsame : ∀ {before v'}, Standing (h ++ [.bind key v]) before name v' ↔
        h.Standing before name v' := by
      intro before v'
      rw [standing_iff_of_snoc, hlevel]
      refine ⟨?_, fun hs => .inr ⟨hs, hs.level_le⟩⟩
      rintro (⟨-, heq⟩ | ⟨hs, -⟩)
      · cases heq
        exact (hname rfl).elim
      · exact hs
    simp only [hsame]
    exact hs name

/-- A scope that has just been opened holds nothing yet. -/
theorem records_nil (hℓ : ∀ before key v, h.Standing before key v → level before < ℓ) :
    h.Records ℓ [] :=
  fun key before v hs => Nat.ne_of_lt (hℓ before key v hs)

/-- The scopes hold what the names stand for. -/
theorem Recorded.findSome? (hs : h.Recorded scopes)
    (hlevel : ∀ before v, h.Standing before key v → level before < scopes.length) :
    match scopes.findSome? (Table.get? · key) with
    | none => h.Unbound key
    | some v => h.Binds key v := by
  induction scopes with
  | nil => exact fun before v hstand => absurd (hlevel before v hstand) (Nat.not_lt_zero _)
  | cons s outer ih =>
    have hkey := hs.1 key
    rw [List.findSome?_cons]
    cases hget : Table.get? s key with
    | none =>
      rw [hget] at hkey
      refine ih hs.2 fun before v hstand => ?_
      have := hlevel before v hstand
      have := hkey before v hstand
      rw [List.length_cons] at *
      omega
    | some v =>
      rw [hget] at hkey
      obtain ⟨before, hstand, hbefore, hlast⟩ := hkey
      refine ⟨before, hstand, fun before' v' hstand' => ?_⟩
      have := hlevel before' v' hstand'
      rw [List.length_cons] at this
      by_cases heq : level before' = outer.length
      · exact .inr ⟨heq.trans hbefore.symm, hlast before' v' hstand' heq⟩
      · exact .inl (by omega)

end History

open History

namespace Context

variable {ctx : Context}

theorem after_snoc (ctx : Context) (h : History) (a : Action) :
    ctx.after (h ++ [a]) = (ctx.after h).act a := by
  rw [after, after, List.foldl_append]
  rfl

theorem act_enter (ctx : Context) : ∃ depth, ctx.act .enter = { ctx with depth := depth } := by
  unfold act Context.enter
  by_cases hfull : ctx.maxDepth ≤ ctx.depth
  · rw [if_pos hfull]
    exact ⟨ctx.depth, rfl⟩
  · rw [if_neg hfull]
    exact ⟨ctx.depth + 1, rfl⟩

/-- Every history leaves scopes that hold what it says. -/
theorem recorded_after (hctx : ctx.scopes = [[]]) (h : History) :
    (ctx.after h).outer.length = level h ∧ h.Recorded (ctx.after h).scopes := by
  induction h using List.reverseRecOn with
  | nil =>
    obtain ⟨hinner, houter⟩ := List.cons.inj hctx
    refine ⟨congrArg List.length houter, ?_⟩
    rw [after, List.foldl_nil, hctx]
    exact ⟨records_nil fun before key v ⟨_, heq, _⟩ => by simp at heq, trivial⟩
  | append_singleton h a ih =>
    obtain ⟨hlength, hrec⟩ := ih
    rw [after_snoc, level_snoc]
    generalize ctx.after h = ctx at hlength hrec ⊢
    -- an action that touches no scope leaves all of them as they are
    have hkept : a.scopes (level h) = level h → (∀ key v, a ≠ .bind key v) →
        Recorded (h ++ [a]) ctx.scopes := by
      intro hscopes hbind
      refine hrec.snoc ?_ fun _ => hbind
      rw [level_snoc, hscopes, ← hlength]
      exact Nat.le_refl _
    cases a with
    | bind key v =>
      obtain ⟨hinner, houter⟩ := hrec
      refine ⟨hlength, ?_, houter.snoc ?_ fun hlt => by omega⟩
      · change Records _ ctx.outer.length _
        rw [hlength] at hinner ⊢
        exact hinner.bind key v
      · rw [level_snoc, hlength]
        exact Nat.le_succ _
    | openScope =>
      refine ⟨congrArg (· + 1) hlength, records_nil fun before key v hs => ?_,
        hrec.snoc ?_ fun _ => nofun⟩
      · change level before < ctx.outer.length + 1
        rcases standing_iff_of_snoc.1 hs with ⟨-, heq⟩ | ⟨hs, -⟩
        · cases heq
        · have := hs.level_le
          omega
      · rw [level_snoc, ← hlength]
        exact Nat.le_succ _
    | closeScope =>
      obtain ⟨data, maxDepth, scoping, innermost, outer, depth⟩ := ctx
      cases outer with
      | nil => exact ⟨congrArg (· - 1) hlength, hkept (by rw [← hlength]; rfl) nofun⟩
      | cons s outer =>
        refine ⟨congrArg (· - 1) hlength, hrec.2.snoc ?_ fun _ => nofun⟩
        rw [level_snoc, ← hlength]
        exact Nat.le_refl _
    | enter =>
      obtain ⟨depth, hact⟩ := ctx.act_enter
      rw [hact]
      exact ⟨hlength, hkept rfl nofun⟩
    | leave => exact ⟨hlength, hkept rfl nofun⟩

/-! ## Paths -/

/-- A name without a dot, alone or in front of further segments, stands for what it is bound to. -/
theorem get_of_binding? {head : String} {v : Value} (hdot : '.' ∉ head.toList)
    (h : ctx.binding? head = some v) :
    ctx.get head = v ∧ ∀ rest, ctx.get (head ++ "." ++ rest) = (v.lookup rest).getD .null := by
  refine ⟨?_, fun rest => ?_⟩
  · simp only [get, find?, segments_eq_self hdot, h]
    rfl
  · simp only [get, find?, segments_append, segments_eq_self hdot, List.singleton_append, h]
    rfl

/-- Where the name is not bound, the path leads into the data. -/
theorem get_of_unbound {head : String} (hdot : '.' ∉ head.toList)
    (h : ctx.binding? head = none) :
    ctx.get head = (ctx.data.lookup head).getD .null ∧
      ∀ rest, ctx.get (head ++ "." ++ rest) =
        (ctx.data.lookup (head ++ "." ++ rest)).getD .null := by
  refine ⟨?_, fun rest => ?_⟩
  · simp only [get, find?, Value.lookup, segments_eq_self hdot, h]
  · simp only [get, find?, Value.lookup, segments_append, segments_eq_self hdot,
      List.singleton_append, h]

theorem get_congr {ctx' : Context} (hscopes : ctx'.scopes = ctx.scopes)
    (hdata : ctx'.data = ctx.data) (path : String) : ctx'.get path = ctx.get path := by
  unfold get find? binding?
  rw [hscopes, hdata]

theorem closeScope_data (ctx : Context) : ctx.closeScope.data = ctx.data := by
  unfold closeScope
  split <;> rfl

theorem act_data (ctx : Context) (a : Action) : (ctx.act a).data = ctx.data := by
  cases a with
  | closeScope => exact closeScope_data ctx
  | enter =>
    obtain ⟨depth, hact⟩ := ctx.act_enter
    rw [hact]
  | bind | openScope | leave => rfl

theorem after_data (ctx : Context) (h : History) : (ctx.after h).data = ctx.data := by
  induction h generalizing ctx with
  | nil => rfl
  | cons a h ih => exact (ih (ctx.act a)).trans (act_data ctx a)

theorem after_append (ctx : Context) (h h' : History) :
    ctx.after (h ++ h') = (ctx.after h).after h' :=
  List.foldl_append

theorem scopes_closeScope {ctx' : Context} (h : ctx'.outer = ctx.scopes) :
    ctx'.closeScope.scopes = ctx.scopes := by
  unfold closeScope
  rw [h]
  rfl

end Context

/-- What is matched changes no scope but the innermost. -/
theorem History.Matched.outer_after {h : History} (hm : h.Matched) (ctx : Context) :
    (ctx.after h).outer = ctx.outer := by
  induction hm generalizing ctx with
  | nil => rfl
  | bind _ ih => exact ih _
  | @enter h _ ih =>
    obtain ⟨depth, hact⟩ := ctx.act_enter
    change ((ctx.act .enter).after h).outer = _
    rw [hact]
    exact ih _
  | leave _ ih => exact ih _
  | @scope inside h _ _ ihin ih =>
    change (ctx.openScope.after (inside ++ .closeScope :: h)).outer = _
    rw [Context.after_append]
    refine (ih _).trans ?_
    exact (List.cons.inj (Context.scopes_closeScope (ihin ctx.openScope))).2

/-- What a path stands for is what the history says of its first segment: the value that this is
bound to in the innermost open scope that binds it, and otherwise what the data hold. What happens
in a scope that has been closed again does not matter. -/
theorem get_after (data : Value) (maxDepth : Nat) (scoping : Scoping) (h : History) {head : String}
    (hdot : '.' ∉ head.toList) :
    let fresh : Context := { data, maxDepth, scoping }
    (∀ v, h.Binds head v → (fresh.after h).get head = v ∧
      ∀ rest, (fresh.after h).get (head ++ "." ++ rest) = (v.lookup rest).getD .null) ∧
    (h.Unbound head → (fresh.after h).get head = (data.lookup head).getD .null ∧
      ∀ rest, (fresh.after h).get (head ++ "." ++ rest) =
        (data.lookup (head ++ "." ++ rest)).getD .null) ∧
    ((∃ v, h.Binds head v) ∨ h.Unbound head) ∧
    ∀ inside : History, inside.Matched → ∀ path,
      (fresh.after (h ++ .openScope :: inside ++ [.closeScope])).get path =
        (fresh.after h).get path := by
  intro fresh
  have hroot : fresh.scopes = [[]] := rfl
  obtain ⟨hlength, hrec⟩ := Context.recorded_after hroot h
  have hopen : ∀ before v, h.Standing before head v →
      before.level < (fresh.after h).scopes.length := by
    intro before v hs
    have := hs.level_le
    rw [Context.scopes, List.length_cons]
    omega
  have hfound : match (fresh.after h).binding? head with
      | none => h.Unbound head
      | some v => h.Binds head v := hrec.findSome? hopen
  have hinside : ∀ inside : History, inside.Matched → ∀ path,
      (fresh.after (h ++ .openScope :: inside ++ [.closeScope])).get path =
        (fresh.after h).get path := by
    intro inside hm path
    have hafter : fresh.after (h ++ .openScope :: inside ++ [.closeScope]) =
        ((fresh.after h).openScope.after inside).closeScope := by
      rw [Context.after_snoc, Context.after_append]
      rfl
    rw [hafter]
    refine Context.get_congr (Context.scopes_closeScope (hm.outer_after _)) ?_ path
    rw [Context.closeScope_data, Context.after_data]
    rfl
  cases hget : (fresh.after h).binding? head with
  | none =>
    rw [hget] at hfound
    have hdata := Context.get_of_unbound hdot hget
    rw [Context.after_data] at hdata
    exact ⟨fun v ⟨before, hs, _⟩ => (hfound before v hs).elim, fun _ => hdata, .inr hfound, hinside⟩
  | some v =>
    rw [hget] at hfound
    refine ⟨fun v' hv' => ?_, fun hnone => ?_, .inl ⟨v, hfound⟩, hinside⟩
    · obtain rfl := hv'.unique hfound
      exact Context.get_of_binding? hdot hget
    · obtain ⟨before, hs, -⟩ := hfound
      exact (hnone before v hs).elim

theorem get_after_shadowed :
    let h : History := [.bind "x" (.string "1"), .openScope, .bind "x" (.list [.string "2"])]
    let inside : History := [.bind "x" .null, .openScope, .bind "y" .null, .closeScope, .enter]
    '.' ∉ "x".toList ∧ h.Binds "x" (.list [.string "2"]) ∧ inside.Matched ∧
      (Context.after {} (h ++ .openScope :: inside ++ [.closeScope])).get "x.0" =
        .string "2" := by
  intro h inside
  have hdot : '.' ∉ "x".toList := by decide
  have hbinds : h.Binds "x" (.list [.string "2"]) := by
    refine ⟨[.bind "x" (.string "1"), .openScope], ⟨[], rfl, fun part hpart => ?_⟩,
      fun before' v' hs => ?_⟩
    · rw [List.prefix_nil.1 hpart]
      decide
    · have hle := hs.level_le
      obtain ⟨since, heq, -⟩ := hs
      have hlength := congrArg List.length heq
      rw [List.length_append, List.length_cons] at hlength
      change 3 = before'.length + (since.length + 1) at hlength
      change History.level before' ≤ 1 at hle
      change History.level before' < 1 ∨ History.level before' = 1 ∧ before'.length ≤ 2
      omega
  have hmatched : inside.Matched := .bind (.scope (.bind .nil) (.enter .nil))
  obtain ⟨hbound, -, -, hinside⟩ := get_after .null defaultDepth .isolated h hdot
  refine ⟨hdot, hbinds, hmatched, ?_⟩
  rw [hinside inside hmatched "x.0"]
  exact (hbound _ hbinds).2 "0"

end BraceTemplate
