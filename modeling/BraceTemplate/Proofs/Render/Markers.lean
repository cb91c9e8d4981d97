import BraceTemplate.Proofs.Render.Alike

/-!
# Markers on blocks

The trim markers on the tags of a block are there for helpers to see. Rendering reads none of them:
templates that differ in the markers of their blocks render alike from every context, whatever the
depth of these blocks and whether they stand in the template or in a partial, as long as no helper
looks at the markers (`render_remarked`).
-/

namespace BraceTemplate

/-- The second node is the first with other markers on the tags of blocks, at any places in it: on
those of a block helper and of a binder, and in the place for the markers of an inline tag if the
node is a block helper. The arguments of plain partials may differ, too. -/
inductive Node.Remarked : Node → Node → Prop
  | same (n : Node) : Remarked n n
  | within {n n' : Node} : n.Alike Remarked n' → Remarked n n'

theorem evaluate_remarked {reg reg' : Registry} (hreg : reg.Respects Node.Remarked)
    (h : reg.Alike Node.Remarked reg') (budget : Nat) {t t' : Task}
    (ht : t.Alike Node.Remarked t') : evaluate reg budget t = evaluate reg' budget t' := by
  refine evaluate_alike hreg h .same (fun call call' hcall n n' hn => ?_) budget ht
  cases hn with
  | same => exact Evaluation.node_alike hreg h hcall (.refl .same n)
  | within hn => exact Evaluation.node_alike hreg h hcall hn

/-- The markers on the tags of blocks may be set at will, in a block, a node or a parameter and in
the registered templates. From every context the result is the same, and the context that is left.
Helpers and binders may do with the trees that they are handed what they like, but to look at these
markers: from trees that differ in them only, they are to make requests that do so, too. -/
theorem render_remarked {reg reg' : Registry} (hreg : reg.Respects Node.Remarked)
    (h : reg.Alike Node.Remarked reg') :
    (∀ b b' : Block, List.Forall₂ Node.Remarked b b' → b'.render reg' = b.render reg) ∧
    (∀ n n' : Node, n.Remarked n' → n'.render reg' = n.render reg) ∧
    (∀ p p' : Param, p.Alike Node.Remarked p' →
      p'.evaluate reg' = p.evaluate reg ∧ p'.render reg' = p.render reg) := by
  have hcall : ∀ {t t' : Task}, t.Alike Node.Remarked t' →
      evaluate reg openCalls t = evaluate reg' openCalls t' := evaluate_remarked hreg h _
  exact ⟨fun b b' hb => (hcall (.block hb)).symm, fun n n' hn => (hcall (.node hn)).symm,
    fun p p' hp => ⟨(Evaluation.value_alike hcall hp).symm, (Evaluation.text_alike hcall hp).symm⟩⟩

/-- Renders its body with the body appended to it once more, as a block. -/
def twiceHelper : Helper := fun _ body _ =>
  match body with
  | some b => Script.block (b ++ [.block b])
  | none => return ""

/-- A host with that helper, and with a template that calls it. -/
def twiceHost (marks : TrimMarks) : Registry where
  helpers := [("twice", twiceHelper)]
  partials := [("p", .template [.helper .raw "twice" [] (some [.content " x "]) none .none
    (some marks)])]

theorem respects_twiceHost (marks : TrimMarks) : (twiceHost marks).Respects Node.Remarked where
  helper hget _ _ body body' _ _ _ hbody _ := by
    simp only [twiceHost, Table.get?] at hget
    split at hget <;> cases hget
    cases hbody with
    | none => exact .refl _
    | some hb =>
      refine .renderBlock ?_ fun _ => .refl _
      exact List.rel_append hb (.cons (.within (.block hb)) .nil)
  binder hget := by cases hget

theorem alike_twiceHost (marks marks' : TrimMarks) :
    (twiceHost marks).Alike Node.Remarked (twiceHost marks') where
  helpers := rfl
  binders := rfl
  escape := rfl
  partials name := by
    simp only [twiceHost, Table.get?]
    split
    · exact .some (.template (.cons (.within (.helper .nil (.some (.cons (.same _) .nil)) .none
        fun h => by cases h)) .nil))
    · exact .none

/-- Markers on the tags of a block and of a block in a partial, and in the place for those of an
inline tag: no blank is stripped. -/
theorem render_remarked_twiceHost :
    let all : TrimMarks := ⟨⟨true, true⟩, ⟨true, true⟩, ⟨true, true⟩⟩
    let b (trim : Trim) (marks : TrimMarks) : Block :=
      [.helper .raw "twice" [] (some [.content " y "]) none trim (some marks),
        .plainPartial "p" [] .none]
    (twiceHost .none).Respects Node.Remarked ∧
      (twiceHost .none).Alike Node.Remarked (twiceHost all) ∧
      List.Forall₂ Node.Remarked (b .none .none) (b ⟨true, true⟩ all) ∧
      (b ⟨true, true⟩ all).render (twiceHost all) = (b .none .none).render (twiceHost .none) ∧
      (b .none .none).render (twiceHost .none) {} = some (.ok " y  y  x  x ", {}) := by
  intro all b
  have hreg := respects_twiceHost .none
  have halike := alike_twiceHost .none all
  have hb : List.Forall₂ Node.Remarked (b .none .none) (b ⟨true, true⟩ all) :=
    .cons (.within (.helper .nil (.some (.cons (.same _) .nil)) .none fun h => by cases h))
      (.cons (.same _) .nil)
  exact ⟨hreg, halike, hb, (render_remarked hreg halike).1 _ _ hb, rfl⟩

end BraceTemplate
