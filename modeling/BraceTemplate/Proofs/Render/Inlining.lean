import BraceTemplate.Proofs.Render.Alike

/-!
# Partials in place

A partial that is a template does to a rendering what a nested block of its nodes does: both count
one level of depth, and neither opens a scope. So writing such blocks in place of such partials,
anywhere in a template, changes neither a result nor the context that is left, if the host only
renders what it is handed (`render_inlined`).
-/

namespace BraceTemplate

/-- The second node is the first with partials replaced at any places in it, each by a block of the
nodes of its template. What is put in place may have partials replaced in turn. -/
inductive Node.Inlines (reg : Registry) : Node → Node → Prop
  | same (n : Node) : Inlines reg n n
  | within {n n' : Node} : n.Alike (Inlines reg) n' → Inlines reg n n'
  | inlined {name : String} {args : List Argument} {root root' : Block} :
      Table.get? reg.partials name = some (.template root) →
      List.Forall₂ (Inlines reg) root root' →
      Inlines reg (.plainPartial name args .none) (.block root')

/-- A partial without trim markers is its template as a block. -/
theorem node_plainPartial_template {reg : Registry} {call : Task → Rendering String} {name : String}
    {root : Block} (hget : Table.get? reg.partials name = some (.template root))
    (args : List Argument) :
    Evaluation.node reg call (.plainPartial name args .none) = call (.block root) := by
  simp only [Evaluation.node, Evaluation.callPartial, hget, Partial.task, Trim.apply_none,
    bind_pure]

theorem evaluate_inlined {reg : Registry} (hreg : reg.Uniform) (budget : Nat) {t t' : Task}
    (ht : t.Alike (Node.Inlines reg) t') : evaluate reg budget t = evaluate reg budget t' := by
  have hsame : reg.Alike (Node.Inlines reg) reg := .refl .same reg
  have hrespects : reg.Respects (Node.Inlines reg) := hreg.respects .same
  refine evaluate_alike hrespects hsame .same (fun call call' hcall n n' hn => ?_) budget ht
  cases hn with
  | same => exact Evaluation.node_alike hrespects hsame hcall (.refl .same n)
  | within hn => exact Evaluation.node_alike hrespects hsame hcall hn
  | inlined hget hroot =>
    -- both nodes come to their block by one call, so not even the budget tells them apart
    rw [node_plainPartial_template hget, hcall (.block hroot)]
    rfl

/-- Partials may be replaced by blocks of the nodes of their templates, at any places of a block, a
node or a parameter. From every context the result is the same, and the context that is left. -/
theorem render_inlined {reg : Registry} (hreg : reg.Uniform) :
    (∀ b b' : Block, List.Forall₂ (Node.Inlines reg) b b' → b'.render reg = b.render reg) ∧
    (∀ n n' : Node, n.Inlines reg n' → n'.render reg = n.render reg) ∧
    (∀ p p' : Param, p.Alike (Node.Inlines reg) p' →
      p'.evaluate reg = p.evaluate reg ∧ p'.render reg = p.render reg) := by
  have hcall : ∀ {t t' : Task}, t.Alike (Node.Inlines reg) t' →
      evaluate reg openCalls t = evaluate reg openCalls t' := evaluate_inlined hreg _
  exact ⟨fun b b' hb => (hcall (.block hb)).symm, fun n n' hn => (hcall (.node hn)).symm,
    fun p p' hp => ⟨(Evaluation.value_alike hcall hp).symm, (Evaluation.text_alike hcall hp).symm⟩⟩

theorem uniform_letHost : letHost.Uniform where
  helper {R} hR name h hget params params' body body' otherwise otherwise' _ hbody _ := by
    simp only [letHost, Table.get?] at hget
    split at hget <;> cases hget
    cases hbody with
    | none => exact .refl _
    | some hb =>
      rw [letHelper_some, letHelper_some]
      exact .same fun _ => .same fun _ => .renderBlock hb fun _ => .same fun _ => .refl _
  binder _ _ _ hget := by cases hget

/-- The partial in the body of a helper, and what it stands for. -/
theorem render_inlined_letHost :
    let within (n : Node) : Node := .helper .raw "let" [] (some [n]) none .none (some .none)
    let p : Node := .plainPartial "p" [] .none
    let b : Node := .block [.boundPartial "q" [.mk "k" (.path "x")] .none]
    letHost.Uniform ∧ (within p).Inlines letHost (within b) ∧
      (within b).render letHost = (within p).render letHost := by
  intro within p b
  have hpartial : p.Inlines letHost b := .inlined rfl (alike_block_refl .same _)
  have hwithin : (within p).Inlines letHost (within b) :=
    .within (.helper .nil (.some (.cons hpartial .nil)) .none fun _ => rfl)
  exact ⟨uniform_letHost, hwithin, (render_inlined uniform_letHost).2.1 _ _ hwithin⟩

end BraceTemplate
