import BraceTemplate.Proofs.Value.Path
import BraceTemplate.Render.Context

/-!
# Variables in scopes and in the data

The head of a path is looked up in the scopes, and where no scope binds it the whole path leads into
the data. Nothing of this shows in the result: a path resolves segment by segment, wherever it
starts (`get_dotted`), and names bound in the outermost scope stand for what they would stand for as
entries of the data (`get_bindAll`).
-/

namespace BraceTemplate

/-! ## Names bound one after the other -/

/-- The table with the given entries in addition, of which the last one for a key counts. -/
def Table.insertAll {α : Type} (t : Table α) (entries : List (String × α)) : Table α :=
  entries.foldl (fun t e => insert t e.1 e.2) t

def Context.bindAll (ctx : Context) (bindings : List (String × Value)) : Context :=
  bindings.foldl (fun ctx b => ctx.bind b.1 b.2) ctx

/-- An entry that is added counts before those that were there. -/
theorem Table.get?_insertAll {α : Type} (t : Table α) (entries : List (String × α))
    (key : String) :
    get? (insertAll t entries) key = (get? (ofList entries) key).or (get? t key) := by
  induction entries generalizing t with
  | nil => rfl
  | cons e entries ih =>
    -- the first entry goes into either table, the one given here and the empty one
    have hfirst : ∀ t : Table α, get? (insertAll t (e :: entries)) key =
        (get? (ofList entries) key).or (if e.1 = key then some e.2 else get? t key) := by
      intro t
      rw [← get?_insert]
      exact ih (insert t e.1 e.2)
    have hempty : get? (ofList (e :: entries)) key = _ := hfirst []
    rw [hfirst, hempty, Option.or_assoc]
    by_cases hkey : e.1 = key
    · rw [if_pos hkey, if_pos hkey]
      rfl
    · rw [if_neg hkey, if_neg hkey]
      rfl

namespace Context

theorem binding?_eq (ctx : Context) (name : String) : ctx.binding? name =
    (Table.get? ctx.innermost name).or (ctx.outer.findSome? (Table.get? · name)) := by
  rw [binding?, scopes, List.findSome?_cons]
  cases Table.get? ctx.innermost name <;> rfl

theorem binding?_bind (ctx : Context) (key : String) (v : Value) (name : String) :
    (ctx.bind key v).binding? name = if key = name then some v else ctx.binding? name := by
  rw [binding?_eq, binding?_eq, bind, Table.get?_insert]
  split <;> rfl

theorem bindAll_eq (ctx : Context) (bindings : List (String × Value)) :
    ctx.bindAll bindings = { ctx with innermost := Table.insertAll ctx.innermost bindings } := by
  induction bindings generalizing ctx with
  | nil => rfl
  | cons b bindings ih => exact ih (ctx.bind b.1 b.2)

/-! ## Paths -/

/-- What lies behind a path is found by following the path on from what it stands for. -/
theorem find?_append (ctx : Context) (p q : String) :
    ctx.find? (p ++ "." ++ q) = (ctx.find? p).bind (·.lookup q) := by
  rw [find?, find?, segments_append, segments_eq_cons p, List.cons_append]
  dsimp only
  cases ctx.binding? (firstSegment p) with
  | some v => exact v.follow_append _ _
  | none => exact ctx.data.follow_append (firstSegment p :: _) _

end Context

/-- A path resolves segment by segment: what `p.q` stands for is what `q` finds in the value of `p`,
null if that is nothing, and in a value it finds what `q` finds in what `p` finds. -/
theorem get_dotted (p q : String) :
    (∀ ctx : Context, ctx.get (p ++ "." ++ q) = ((ctx.get p).lookup q).getD .null) ∧
      ∀ v : Value, v.lookup (p ++ "." ++ q) = (v.lookup p).bind (·.lookup q) := by
  refine ⟨fun ctx => ?_, fun v => v.lookup_append p q⟩
  rw [Context.get, Context.get, ctx.find?_append]
  cases ctx.find? p with
  | some v => rfl
  | none => exact (Value.getD_follow_null _).symm

/-- The entries of the data are to a path what one more scope around all others would be, unless the
path starts at the data as a whole. -/
theorem Context.find?_of_map {ctx : Context} {entries : Table Value}
    (hdata : ctx.data = .map entries) {path : String} (hpath : firstSegment path ≠ "this") :
    ctx.find? path = ((ctx.binding? (firstSegment path)).or
      (Table.get? entries (firstSegment path))).bind (·.follow (segments path).tail) := by
  rw [find?, segments_eq_cons path, hdata]
  dsimp only
  cases ctx.binding? (firstSegment path) with
  | some v => rfl
  | none =>
    simp only [Value.follow, Value.get?, if_neg hpath]
    rfl

/-- Names bound in the outermost scope of a fresh context stand for what they would stand for as
entries of its data, in every path that does not start at the data as a whole. -/
theorem get_bindAll (entries : Table Value) (bindings : List (String × Value)) (maxDepth : Nat)
    (scoping : Scoping) {path : String} (hpath : firstSegment path ≠ "this") :
    let bound : Context := { data := .map entries, maxDepth, scoping }
    let held : Context := { data := .map (Table.insertAll entries bindings), maxDepth, scoping }
    (bound.bindAll bindings).get path = held.get path := by
  intro bound held
  have hbound : (bound.bindAll bindings).binding? (firstSegment path) =
      Table.get? (Table.ofList bindings) (firstSegment path) := by
    rw [Context.bindAll_eq, Context.binding?_eq]
    exact Option.or_none
  have hheld : held.binding? (firstSegment path) = none := rfl
  have hdata : (bound.bindAll bindings).data = .map entries := by
    rw [Context.bindAll_eq]
  rw [Context.get, Context.get, Context.find?_of_map hdata hpath, Context.find?_of_map rfl hpath,
    hbound, hheld, Table.get?_insertAll, Option.none_or]

/-- A nested map that is shadowed, by the later of two bindings. -/
theorem get_bindAll_shadowed :
    let entries : Table Value := [("a", .map [("0", .bool true)])]
    let bindings : List (String × Value) := [("a.0", .null), ("a", .null), ("a", .list [.null])]
    firstSegment "a.0" ≠ "this" ∧
      (Context.bindAll { data := .map entries } bindings).get "a.0" =
        Context.get { data := .map (Table.insertAll entries bindings) } "a.0" := by
  intro entries bindings
  have hpath : firstSegment "a.0" ≠ "this" := by decide
  exact ⟨hpath, get_bindAll entries bindings defaultDepth .isolated hpath⟩

end BraceTemplate
