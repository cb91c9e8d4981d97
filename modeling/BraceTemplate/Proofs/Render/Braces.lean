import BraceTemplate.Proofs.Grammar.Soundness
import BraceTemplate.Render.Evaluation

/-!
# Two braces and three

The same text between two braces and between three makes the same variable or the same call, or
neither does, whatever the text is: what may stand in such a tag does not depend on its braces. The
two tags differ in what becomes of their output, which is escaped for two braces.
-/

namespace BraceTemplate

def Output.enclose (output : Output) (inside : String) : String :=
  String.ofList (output.opening ++ inside.toList ++ output.closing)

/-! ## What stands between the braces -/

section
variable {inner : List Param → List Char → Prop} {body : Block → List Char → Prop}
variable {output : Output} {u w : List Char}

theorem cancel_braces (output : Output) (h : output.opening ++ u ++ output.closing =
    output.opening ++ w ++ output.closing) : u = w :=
  List.append_cancel_left (List.append_cancel_right h)

/-- A variable is written alike between the braces of either kind. -/
theorem TagText.reference_braces {path : String} {trim : Trim}
    (h : TagText inner body (.reference output path trim) (output.opening ++ u ++ output.closing))
    (output' : Output) : TagText inner body (.reference output' path trim)
      (output'.opening ++ u ++ output'.closing) := by
  generalize hw : output.opening ++ u ++ output.closing = w at h
  cases h with
  | @reference _ l r b b' _ hb hp he hb' =>
    have hu : u = mark l ++ b ++ path.toList ++ b' ++ mark r :=
      cancel_braces output (by simpa only [List.append_assoc] using hw)
    subst hu
    have htag : TagText inner body (.reference output' path ⟨l, r⟩) _ := .reference hb hp he hb'
    simpa only [List.append_assoc] using htag

/-- So is an inline call. -/
theorem TagText.call_braces {name : String} {params : List Param} {otherwise : Option Block}
    {trim : Trim} {marks : Option TrimMarks}
    (h : TagText inner body (.helper output name params none otherwise trim marks)
      (output.opening ++ u ++ output.closing))
    (output' : Output) : TagText inner body (.helper output' name params none otherwise trim marks)
      (output'.opening ++ u ++ output'.closing) := by
  generalize hw : output.opening ++ u ++ output.closing = w at h
  cases h with
  | @helper _ l r b v b' _ _ hb hn hne he hv hb' =>
    have hu : u = mark l ++ b ++ name.toList ++ v ++ b' ++ mark r :=
      cancel_braces output (by simpa only [List.append_assoc] using hw)
    subst hu
    have htag : TagText inner body (.helper output' name params none none ⟨l, r⟩ none) _ :=
      .helper hb hn hne he hv hb'
    simpa only [List.append_assoc] using htag

/-- No block is escaped. -/
theorem TagText.body_eq_none {name : String} {params : List Param}
    {first otherwise : Option Block} {trim : Trim} {marks : Option TrimMarks}
    (h : TagText inner body (.helper .escaped name params first otherwise trim marks) w) :
    first = none := by
  cases h
  rfl

end

/-- A tag alone is a template as it is written. -/
theorem parseWithin_tag_iff {limit : Nat} {n : Node} (hn : ∀ t, n ≠ .content t) (output : Output)
    (inside : String) : parseWithin limit (output.enclose inside) = .ok [n] ↔
      TagText (InnerText limit) (BodyText limit) n
        (output.opening ++ inside.toList ++ output.closing) := by
  rw [parseWithin_eq_singleton_iff hn, Output.enclose, String.toList_ofList]

/-! ## What becomes of the output -/

namespace Rendering

variable {α β : Type}

theorem map_apply (f : α → β) (p : Rendering α) (ctx : Context) :
    (f <$> p) ctx = (p ctx).map fun x => (x.1.map f, x.2) := by
  change (p.andThen fun a => succeed (f a)) ctx = _
  unfold andThen
  rcases p ctx with _ | ⟨_ | a, ctx'⟩ <;> rfl

theorem map_andFinally (f : α → β) (p : Rendering α) (g : Context → Context) :
    (f <$> p).andFinally g = f <$> p.andFinally g := by
  funext ctx
  rw [map_apply]
  unfold andFinally
  rw [map_apply]
  rcases p ctx with _ | ⟨r, ctx'⟩ <;> rfl

end Rendering

namespace Evaluation

variable {reg : Registry} {call : Task → Rendering String}

theorem node_reference_escaped (path : String) (trim : Trim) :
    node reg call (.reference .escaped path trim) =
      reg.escape <$> node reg call (.reference .raw path trim) := by
  cases hget : Table.get? reg.helpers path <;>
    simp only [node, hget, Registry.emit, map_bind, map_pure]

theorem node_helper_escaped (name : String) (params : List Param) (body otherwise : Option Block)
    (trim : Trim) (marks : Option TrimMarks) :
    node reg call (.helper .escaped name params body otherwise trim marks) =
      reg.escape <$> node reg call (.helper .raw name params body otherwise trim marks) := by
  simp only [node, Registry.emit, map_bind, map_pure]

theorem items_singleton (n : Node) : items call [n] = call (.node n) := by
  simp only [items]
  change (do return (← call (.node n)) ++ (← pure "")) = _
  simp only [pure_bind, String.append_empty, bind_pure]

/-- A block of one node renders to what becomes of another, if the node does. -/
theorem block_singleton {f : String → String} {n n' : Node}
    (h : call (.node n) = f <$> call (.node n')) : block call [n] = f <$> block call [n'] := by
  simp only [block, items_singleton, h, Rendering.map_andFinally, map_bind]

end Evaluation

/-- A block of one node renders to what becomes of another, if the node does with every call. -/
theorem render_singleton {reg : Registry} {f : String → String} {n n' : Node}
    (h : ∀ call, Evaluation.node reg call n = f <$> Evaluation.node reg call n') (ctx : Context) :
    Block.render reg [n] ctx =
      (Block.render reg [n'] ctx).map fun x => (x.1.map f, x.2) := by
  obtain ⟨budget, hbudget⟩ := openCalls_eq
  simp only [Block.render, hbudget]
  rw [← Rendering.map_apply]
  have hblock : Evaluation.block (evaluate reg (budget + 1)) [n] =
      f <$> Evaluation.block (evaluate reg (budget + 1)) [n'] :=
    Evaluation.block_singleton (h _)
  exact congrFun hblock ctx

/-- A text between two braces is a variable or a call exactly if it is the same one between three,
and then the first is rendered to the escaped output of the second, or to the same error, and leaves
the same context. -/
theorem braces_differ_by_escaping (limit : Nat) (inside : String) :
    (∀ path trim,
      parseWithin limit (Output.escaped.enclose inside) = .ok [.reference .escaped path trim] ↔
      parseWithin limit (Output.raw.enclose inside) = .ok [.reference .raw path trim]) ∧
    (∀ name params body otherwise trim marks,
      parseWithin limit (Output.escaped.enclose inside) =
        .ok [.helper .escaped name params body otherwise trim marks] ↔
      parseWithin limit (Output.raw.enclose inside) =
        .ok [.helper .raw name params body otherwise trim marks] ∧ body = none) ∧
    ∀ (reg : Registry) (ctx : Context),
      (∀ path trim, Block.render reg [.reference .escaped path trim] ctx =
        (Block.render reg [.reference .raw path trim] ctx).map fun x =>
          (x.1.map reg.escape, x.2)) ∧
      ∀ name params body otherwise trim marks,
        Block.render reg [.helper .escaped name params body otherwise trim marks] ctx =
          (Block.render reg [.helper .raw name params body otherwise trim marks] ctx).map fun x =>
            (x.1.map reg.escape, x.2) := by
  refine ⟨fun path trim => ?_, fun name params body otherwise trim marks => ?_, fun reg ctx =>
    ⟨fun path trim => ?_, fun name params body otherwise trim marks => ?_⟩⟩
  · rw [parseWithin_tag_iff (fun t h => by cases h), parseWithin_tag_iff (fun t h => by cases h)]
    exact ⟨fun h => h.reference_braces .raw, fun h => h.reference_braces .escaped⟩
  · rw [parseWithin_tag_iff (fun t h => by cases h), parseWithin_tag_iff (fun t h => by cases h)]
    constructor
    · intro h
      obtain rfl := h.body_eq_none
      exact ⟨h.call_braces .raw, rfl⟩
    · rintro ⟨h, rfl⟩
      exact h.call_braces .escaped
  · exact render_singleton (fun _ => Evaluation.node_reference_escaped path trim) ctx
  · exact render_singleton
      (fun _ => Evaluation.node_helper_escaped name params body otherwise trim marks) ctx

end BraceTemplate
