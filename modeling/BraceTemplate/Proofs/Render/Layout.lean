import BraceTemplate.Proofs.Render.Depth
import BraceTemplate.Proofs.Render.Requests

/-!
# The context in memory

A `Context` has an innermost scope and counts levels without bound. A `Layout` is what is kept in
memory in its place: a list of scopes that could be empty, and words for the depth and its limit
that could wrap around. What can be done to a context is written here for layouts, with a case for a
list without scopes and with the arithmetic of words, and `Layout.Holds.after` says that layout and
context stay in step over every history. What a history cannot do to a context, it cannot do to the
layout: no word wraps around, and the case without scopes never comes up (`reached_sound`).
-/

namespace BraceTemplate

/-- A context as it is kept in memory. -/
structure Layout where
  data : Value
  limit : USize
  scoping : Scoping
  /-- The open scopes, innermost first. -/
  scopes : List Scope := [[]]
  depth : USize := 0

namespace Layout

def get (s : Layout) (path : String) : Value :=
  match segments path with
  | [] => .null
  | head :: rest =>
    match s.scopes.findSome? (Table.get? · head) with
    | some v => (v.follow rest).getD .null
    | none => (s.data.follow (head :: rest)).getD .null

/-- Binds a name in the innermost scope, or in a new one if there is none. -/
def bind (s : Layout) (key : String) (value : Value) : Layout :=
  match s.scopes with
  | scope :: outer => { s with scopes := Table.insert scope key value :: outer }
  | [] => { s with scopes := [Table.insert [] key value] }

def openScope (s : Layout) : Layout := { s with scopes := [] :: s.scopes }

/-- Drops the innermost scope, if there is more than one. -/
def closeScope (s : Layout) : Layout :=
  if 1 < s.scopes.length then { s with scopes := s.scopes.tail } else s

def enter (s : Layout) : Except RenderError Unit × Layout :=
  if s.limit ≤ s.depth then (.error (.tooDeep s.limit.toNat), s)
  else (.ok (), { s with depth := s.depth + 1 })

def leave (s : Layout) : Layout :=
  { s with depth := if 1 ≤ s.depth then s.depth - 1 else 0 }

def act (s : Layout) : Action → Layout
  | .bind key value => s.bind key value
  | .openScope => s.openScope
  | .closeScope => s.closeScope
  | .enter => s.enter.2
  | .leave => s.leave

def after (s : Layout) (h : History) : Layout := h.foldl act s

structure Holds (s : Layout) (ctx : Context) : Prop where
  data : s.data = ctx.data
  limit : s.limit.toNat = ctx.maxDepth
  scoping : s.scoping = ctx.scoping
  scopes : s.scopes = ctx.scopes
  depth : s.depth.toNat = ctx.depth

variable {s : Layout} {ctx : Context}

theorem toNat_succ {a b : USize} (h : a < b) : (a + 1).toNat = a.toNat + 1 := by
  have hlt : a.toNat < b.toNat := USize.lt_iff_toNat_lt.1 h
  have hb : b.toNat < USize.size := b.toNat_lt_size
  rw [USize.toNat_add, USize.toNat_one]
  exact Nat.mod_eq_of_lt (Nat.lt_of_le_of_lt hlt hb)

/-- Both are allowed to go one level further, and the word for the depth has room for it. -/
theorem Holds.enter (hs : s.Holds ctx) :
    match ctx.enter with
    | .ok ctx' => s.enter.1 = .ok () ∧ s.enter.2.Holds ctx'
    | .error e => s.enter = (.error e, s) := by
  have hiff : s.limit ≤ s.depth ↔ ctx.maxDepth ≤ ctx.depth := by
    rw [USize.le_iff_toNat_le, hs.limit, hs.depth]
  unfold Layout.enter Context.enter
  by_cases hfull : ctx.maxDepth ≤ ctx.depth
  · rw [if_pos hfull, if_pos (hiff.2 hfull), hs.limit]
  · rw [if_neg hfull, if_neg (mt hiff.1 hfull)]
    refine ⟨rfl, { hs with depth := ?_ }⟩
    rw [toNat_succ (USize.not_le.1 (mt hiff.1 hfull)), hs.depth]

theorem Holds.leave (hs : s.Holds ctx) : s.leave.Holds ctx.leave := by
  refine { hs with depth := ?_ }
  change (if 1 ≤ s.depth then s.depth - 1 else 0).toNat = ctx.depth - 1
  rw [← hs.depth]
  by_cases hpos : 1 ≤ s.depth
  · rw [if_pos hpos, USize.toNat_sub_of_le _ _ hpos, USize.toNat_one]
  · rw [USize.le_iff_toNat_le, USize.toNat_one] at hpos
    rw [if_neg (by rwa [USize.le_iff_toNat_le, USize.toNat_one]), USize.toNat_zero]
    omega

theorem Holds.closeScope (hs : s.Holds ctx) : s.closeScope.Holds ctx.closeScope := by
  have hscopes := hs.scopes
  unfold Layout.closeScope Context.closeScope
  rw [hscopes]
  cases houter : ctx.outer with
  | nil =>
    rw [if_neg (by simp [Context.scopes, houter])]
    exact hs
  | cons scope outer =>
    rw [if_pos (by simp [Context.scopes, houter])]
    exact { hs with scopes := by rw [Context.scopes, houter]; rfl }

/-- Layout and context stay in step. -/
theorem Holds.act (hs : s.Holds ctx) (a : Action) : (s.act a).Holds (ctx.act a) := by
  cases a with
  | bind key v =>
    have hbind : s.bind key v = { s with scopes := (ctx.bind key v).scopes } := by
      unfold Layout.bind
      rw [hs.scopes]
      rfl
    change (s.bind key v).Holds (ctx.bind key v)
    rw [hbind]
    exact { hs with scopes := rfl }
  | openScope => exact { hs with scopes := congrArg ([] :: ·) hs.scopes }
  | closeScope => exact hs.closeScope
  | enter =>
    have henter := hs.enter
    change s.enter.2.Holds (match ctx.enter with
      | .ok ctx' => ctx'
      | .error _ => ctx)
    cases h : ctx.enter with
    | ok ctx' =>
      rw [h] at henter
      exact henter.2
    | error e =>
      rw [h] at henter
      simpa only [henter] using hs
  | leave => exact hs.leave

theorem Holds.after (hs : s.Holds ctx) (h : History) : (s.after h).Holds (ctx.after h) := by
  induction h generalizing s ctx with
  | nil => exact hs
  | cons a h ih => exact ih (hs.act a)

theorem Holds.get (hs : s.Holds ctx) (path : String) : s.get path = ctx.get path := by
  unfold Layout.get Context.get Context.find? Context.binding?
  rw [hs.scopes, hs.data]
  cases segments path with
  | nil => rfl
  | cons head rest => cases h : ctx.scopes.findSome? (Table.get? · head) <;> simp only [h]

/-- Nothing but the scopes and the depth is ever changed. -/
theorem act_eq (s : Layout) (a : Action) :
    ∃ scopes depth, s.act a = { s with scopes := scopes, depth := depth } := by
  cases a with
  | bind key v =>
    dsimp only [act, bind]
    split <;> exact ⟨_, _, rfl⟩
  | openScope | leave => exact ⟨_, _, rfl⟩
  | closeScope =>
    dsimp only [act, closeScope]
    split <;> exact ⟨_, _, rfl⟩
  | enter =>
    dsimp only [act, enter]
    split <;> exact ⟨_, _, rfl⟩

theorem after_eq (s : Layout) (h : History) :
    ∃ scopes depth, s.after h = { s with scopes := scopes, depth := depth } := by
  induction h generalizing s with
  | nil => exact ⟨_, _, rfl⟩
  | cons a h ih =>
    obtain ⟨_, _, ha⟩ := s.act_eq a
    obtain ⟨scopes, depth, hh⟩ := ih (s.act a)
    refine ⟨scopes, depth, hh.trans ?_⟩
    rw [ha]

end Layout

structure Setup where
  data : Value
  limit : USize
  scoping : Scoping

def Setup.layout (setup : Setup) : Layout where
  data := setup.data
  limit := setup.limit
  scoping := setup.scoping

def Setup.context (setup : Setup) : Context where
  data := setup.data
  maxDepth := setup.limit.toNat
  scoping := setup.scoping

theorem Setup.holds (setup : Setup) : setup.layout.Holds setup.context :=
  ⟨rfl, rfl, rfl, rfl, USize.toNat_zero⟩

/-- What is true of the layout of a context at any time. -/
structure Layout.Sound (setup : Setup) (s : Layout) : Prop where
  scopes_ne_nil : s.scopes ≠ []
  depth_le : s.depth ≤ s.limit
  /-- Where a level is entered, the word for the depth does not wrap around. -/
  enter_ok : s.enter.1 = .ok () → s.enter.2.depth.toNat = s.depth.toNat + 1
  enter_error : ∀ e, s.enter.1 = .error e → s.enter.2 = s
  data : s.data = setup.data
  limit : s.limit = setup.limit
  scoping : s.scoping = setup.scoping

theorem Context.act_inLimit (ctx : Context) (a : Action) : ctx.InLimit (ctx.act a) := by
  cases a with
  | bind | openScope => exact .refl ctx
  | closeScope => exact ⟨ctx.closeScope_maxDepth, fun hle => by
      change ctx.closeScope.depth ≤ ctx.closeScope.maxDepth
      rwa [ctx.closeScope_depth, ctx.closeScope_maxDepth]⟩
  | enter =>
    unfold act enter
    by_cases hfull : ctx.maxDepth ≤ ctx.depth
    · rw [if_pos hfull]
      exact .refl ctx
    · rw [if_neg hfull]
      exact ⟨rfl, fun _ => Nat.lt_of_not_le hfull⟩
  | leave => exact ⟨rfl, fun hle => Nat.le_trans (Nat.sub_le _ _) hle⟩

theorem Context.after_inLimit (ctx : Context) (h : History) : ctx.InLimit (ctx.after h) := by
  induction h generalizing ctx with
  | nil => exact .refl ctx
  | cons a h ih => exact (ctx.act_inLimit a).trans (ih (ctx.act a))

/-! ## Contexts that are come to -/

/-- The contexts that a context may become: by what is done to it in any order, and by renderings,
at each of their steps, with any registry and any host code. -/
inductive Reached (start : Context) : Context → Prop
  | start : Reached start start
  | act {ctx : Context} (a : Action) : Reached start ctx → Reached start (ctx.act a)
  | passes {reg : Registry} {budget : Nat} {t : Task} {ctx ctx' : Context} :
      Reached start ctx → Passes reg budget t.code ctx ctx' → Reached start ctx'

theorem Reached.evaluate {start ctx ctx' : Context} {reg : Registry} {budget : Nat} {t : Task}
    {result : Except RenderError String} (h : Reached start ctx)
    (heval : evaluate reg budget t ctx = some (result, ctx')) : Reached start ctx' := by
  cases budget with
  | zero => cases heval
  | succ budget => exact h.passes (passes_of_evaluate heval)

theorem Reached.after {start ctx : Context} (h : Reached start ctx) :
    ∃ history, ctx = start.after history := by
  induction h with
  | start => exact ⟨[], rfl⟩
  | act a _ ih =>
    obtain ⟨before, rfl⟩ := ih
    exact ⟨before ++ [a], (Context.after_snoc _ _ _).symm⟩
  | passes _ hpasses ih =>
    obtain ⟨before, rfl⟩ := ih
    obtain ⟨since, rfl⟩ := hpasses.after
    exact ⟨before ++ since, (Context.after_append _ _ _).symm⟩

/-- A level is entered with room for it in the word, or nothing is changed. -/
theorem Layout.Holds.enter_cases {s : Layout} {ctx : Context} (hs : s.Holds ctx) :
    s.enter.1 = .ok () ∧ s.enter.2.depth.toNat = s.depth.toNat + 1 ∨
      ∃ e, s.enter = (.error e, s) := by
  have henter := hs.enter
  cases h : ctx.enter with
  | error e =>
    rw [h] at henter
    exact .inr ⟨e, henter⟩
  | ok ctx' =>
    rw [h] at henter
    obtain rfl := Rendering.enter_ok (show Rendering.enter ctx = some (.ok (), ctx') by
      unfold Rendering.enter
      rw [h])
    refine .inl ⟨henter.1, ?_⟩
    rw [henter.2.depth, hs.depth]

/-- Whatever a context has been through, its layout is that of a context: it has a scope, its depth
is in the limit and does not wrap around, a level that may not be entered changes nothing, and the
rest is as it was set up. -/
theorem reached_sound (setup : Setup) {ctx : Context} (h : Reached setup.context ctx) :
    ∃ history, ctx = setup.context.after history ∧ (setup.layout.after history).Holds ctx ∧
      (setup.layout.after history).Sound setup := by
  obtain ⟨history, rfl⟩ := h.after
  have hlayout := setup.holds.after history
  have hdepth := (setup.context.after_inLimit history).2 (Nat.zero_le _)
  refine ⟨history, rfl, hlayout, ?_⟩
  obtain ⟨scopes, depth, heq⟩ := setup.layout.after_eq history
  refine ⟨?_, ?_, fun hok => ?_, fun e herror => ?_, ?_, ?_, ?_⟩
  · rw [hlayout.scopes]
    exact List.cons_ne_nil _ _
  · rw [USize.le_iff_toNat_le, hlayout.depth, hlayout.limit]
    exact hdepth
  · rcases hlayout.enter_cases with ⟨-, henter⟩ | ⟨e, henter⟩
    · exact henter
    · rw [henter] at hok
      cases hok
  · rcases hlayout.enter_cases with ⟨hok, -⟩ | ⟨e, henter⟩
    · rw [hok] at herror
      cases herror
    · rw [henter]
  all_goals
    rw [heq]
    rfl

def oneLevel : Setup := ⟨.null, 1, .isolated⟩

/-- That context inside the helper of a host, in the block that calls it. -/
def insideLet : Context :=
  { maxDepth := 1, innermost := [("x", .string "1")], outer := [[]], depth := 1 }

/-- After a scope and a level too many are left, a block is rendered up to the body of the helper in
it, which is refused. -/
theorem reached_sound_insideLet :
    Reached oneLevel.context insideLet ∧
      ∃ history, insideLet = oneLevel.context.after history ∧
        (oneLevel.layout.after history).Holds insideLet ∧
        (oneLevel.layout.after history).Sound oneLevel := by
  have hstart : oneLevel.context = { maxDepth := 1 } := by
    rw [Setup.context, oneLevel, USize.toNat_one]
  have hpasses : Passes letHost 3
      (Task.block [.helper .raw "let" [] (some []) none .none (some .none)]).code
      { maxDepth := 1 } insideLet :=
    .onward rfl (.inside (.node _) (.inside (.helper rfl) (.onward rfl (.onward rfl
      (.inside (.block []) .here)))))
  have hreached : Reached oneLevel.context insideLet :=
    ((Reached.start.act .closeScope).act .leave).passes (hstart ▸ hpasses)
  exact ⟨hreached, reached_sound oneLevel hreached⟩

end BraceTemplate
