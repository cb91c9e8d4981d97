import BraceTemplate.Proofs.Render.Keeps
import BraceTemplate.Proofs.Text.Html

/-!
# Data and markup

A template of text, of tags with two braces and of partials that are such templates writes every
value that it is given for HTML. Each character of its output comes from a text or is part of the
written form of a character of a value (`Source`), and the texts that are met do not depend on the
data or on the helpers (`Traces.texts_unique`). So the characters that mean something in HTML are
those of the texts.
-/

namespace BraceTemplate

/-! ## Where characters come from -/

/-- A character on its way into the output. -/
inductive Source where
  /-- It stands in a text of the template. -/
  | text (c : Char)
  /-- It stands in a value. -/
  | value (c : Char)

namespace Source

def char : Source → Char
  | text c => c
  | value c => c

def written : Source → List Char
  | text c => [c]
  | value c => Html.escapeChar c

def isWhite (s : Source) : Bool := isWhiteSpace s.char

theorem flatMap_text (cs : List Char) : (cs.map text).flatMap written = cs := by
  induction cs with
  | nil => rfl
  | cons c cs ih => simp [written, ih]

theorem flatMap_value (s : String) :
    (s.toList.map value).flatMap written = (Html.escape s).toList := by
  simp [Html.escape, List.flatMap_map, written]

theorem written_of_isWhite {s : Source} (h : s.isWhite = true) : s.written = [s.char] := by
  cases s with
  | text c => rfl
  | value c => exact Html.escapeChar_of_isWhiteSpace h

theorem not_isWhiteSpace_of_mem {s : Source} (h : s.isWhite = false) :
    s.written ≠ [] ∧ ∀ c ∈ s.written, isWhiteSpace c = false := by
  cases s with
  | text c => exact ⟨by simp [written], by simpa [written, isWhite, char] using h⟩
  | value c => exact Html.not_isWhiteSpace_of_mem_escapeChar h

/-- Trimming the output strips the sources. -/
theorem strip_written (t : Trim) (srcs : List Source) :
    t.strip isWhiteSpace (srcs.flatMap written) = (t.strip isWhite srcs).flatMap written := by
  refine Trim.strip_flatMap (fun s hs c hc => ?_) (fun s hs => not_isWhiteSpace_of_mem hs) t srcs
  rw [written_of_isWhite hs, List.mem_singleton] at hc
  rwa [hc]

/-- The written form of a value holds no markup. -/
theorem filter_value (cs : List Char) :
    ((cs.map value).flatMap written).filter Html.isMarkup = [] := by
  refine List.filter_eq_nil_iff.2 fun c hc => ?_
  obtain ⟨s, hs, hc⟩ := List.mem_flatMap.1 hc
  obtain ⟨d, -, rfl⟩ := List.mem_map.1 hs
  simp [Html.not_isMarkup_of_mem_escapeChar hc]

/-- An ampersand in what is written for one character is that character, in a text, or starts an
entity. -/
theorem ampersand_of_written {s : Source} {before after : List Char}
    (h : s.written = before ++ '&' :: after) :
    before = [] ∧ (s = .text '&' ∨ ∃ entity ∈ Html.entities, entity.toList = '&' :: after) := by
  cases s with
  | text c =>
    obtain ⟨hbefore, rfl⟩ := Html.eq_of_singleton_eq h
    exact ⟨hbefore, .inl rfl⟩
  | value c =>
    obtain ⟨hbefore, hentity⟩ := Html.ampersand_of_escapeChar h
    exact ⟨hbefore, .inr hentity⟩

/-- An ampersand in the output stands in a text or starts an entity. -/
theorem ampersand {srcs : List Source} {before after : List Char}
    (h : srcs.flatMap written = before ++ '&' :: after) :
    (∃ srcs₁ srcs₂, srcs = srcs₁ ++ .text '&' :: srcs₂ ∧ before = srcs₁.flatMap written) ∨
      ∃ entity ∈ Html.entities, entity.toList <+: '&' :: after := by
  obtain ⟨srcs₁, s, srcs₂, u, v, rfl, hs, rfl, rfl⟩ := exists_of_flatMap_eq h
  obtain ⟨rfl, rfl | ⟨entity, hmem, heq⟩⟩ := ampersand_of_written hs
  · exact .inl ⟨srcs₁, srcs₂, rfl, List.append_nil _⟩
  · refine .inr ⟨entity, hmem, srcs₂.flatMap written, ?_⟩
    rw [heq]
    rfl

end Source

/-- What a block may come to, whatever the values of its tags are: the texts that are met, in the
order they are met, and where the characters of the output come from. -/
inductive Traces (partials : Table Partial) : Block → List String → List Source → Prop
  | nil : Traces partials [] [] []
  | content {t : String} {b : Block} {texts : List String} {srcs : List Source} :
      Traces partials b texts srcs →
      Traces partials (.content t :: b) (t :: texts) (t.toList.map .text ++ srcs)
  | reference {path : String} {trim : Trim} {v : String} {b : Block} {texts : List String}
      {srcs : List Source} :
      Traces partials b texts srcs →
      Traces partials (.reference .escaped path trim :: b) texts (v.toList.map .value ++ srcs)
  | helper {name : String} {params : List Param} {body otherwise : Option Block} {trim : Trim}
      {marks : Option TrimMarks} {v : String} {b : Block} {texts : List String}
      {srcs : List Source} :
      Traces partials b texts srcs →
      Traces partials (.helper .escaped name params body otherwise trim marks :: b) texts
        (v.toList.map .value ++ srcs)
  | plainPartial {name : String} {args : List Argument} {trim : Trim} {root b : Block}
      {texts texts' : List String} {srcs srcs' : List Source} :
      Table.get? partials name = some (.template root) → Traces partials root texts srcs →
      Traces partials b texts' srcs' →
      Traces partials (.plainPartial name args trim :: b) (texts ++ texts')
        (trim.strip Source.isWhite srcs ++ srcs')
  | block {items b : Block} {texts texts' : List String} {srcs srcs' : List Source} :
      Traces partials items texts srcs → Traces partials b texts' srcs' →
      Traces partials (.block items :: b) (texts ++ texts') (srcs ++ srcs')

/-- Nodes that put nothing into the output but texts and escaped values, and that include no
partials but those with names in `P`. -/
inductive Node.Escapes (P : String → Prop) : Node → Prop
  | content {t : String} : Escapes P (.content t)
  | reference {path : String} {trim : Trim} : Escapes P (.reference .escaped path trim)
  | helper {name : String} {params : List Param} {body otherwise : Option Block} {trim : Trim}
      {marks : Option TrimMarks} :
      Escapes P (.helper .escaped name params body otherwise trim marks)
  | plainPartial {name : String} {args : List Argument} {trim : Trim} :
      P name → Escapes P (.plainPartial name args trim)
  | block {b : Block} : (∀ n ∈ b, Escapes P n) → Escapes P (.block b)

namespace Traces

variable {partials : Table Partial} {b b' : Block} {texts texts' : List String}
variable {srcs srcs' : List Source}

/-- The texts that are met do not depend on the values. -/
theorem texts_unique (h : Traces partials b texts srcs) (h' : Traces partials b texts' srcs') :
    texts = texts' := by
  induction h generalizing texts' srcs' with
  | nil =>
    cases h'
    rfl
  | content _ ih =>
    obtain _ | h' := h'
    rw [ih h']
  | reference _ ih =>
    obtain _ | _ | h' := h'
    exact ih h'
  | helper _ ih =>
    obtain _ | _ | _ | h' := h'
    exact ih h'
  | plainPartial hget _ _ ih₁ ih₂ =>
    obtain _ | _ | _ | _ | ⟨hget', h₁, h₂⟩ := h'
    rw [hget] at hget'
    cases hget'
    rw [ih₁ h₁, ih₂ h₂]
  | block _ _ ih₁ ih₂ =>
    obtain _ | _ | _ | _ | _ | ⟨h₁, h₂⟩ := h'
    rw [ih₁ h₁, ih₂ h₂]

theorem append (h : Traces partials b texts srcs) (h' : Traces partials b' texts' srcs') :
    Traces partials (b ++ b') (texts ++ texts') (srcs ++ srcs') := by
  induction h with
  | nil => exact h'
  | content _ ih =>
    rw [List.append_assoc]
    exact .content ih
  | reference _ ih =>
    rw [List.append_assoc]
    exact .reference ih
  | helper _ ih =>
    rw [List.append_assoc]
    exact .helper ih
  | plainPartial hget h₁ _ _ ih =>
    rw [List.append_assoc, List.append_assoc]
    exact .plainPartial hget h₁ ih
  | block h₁ _ _ ih =>
    rw [List.append_assoc, List.append_assoc]
    exact .block h₁ ih

/-- The markup in the output is that of the texts. -/
theorem filter_written (h : Traces partials b texts srcs) :
    (srcs.flatMap Source.written).filter Html.isMarkup =
      (texts.flatMap String.toList).filter Html.isMarkup := by
  induction h with
  | nil => rfl
  | content _ ih =>
    rw [List.flatMap_append, List.flatMap_cons, Source.flatMap_text, List.filter_append,
      List.filter_append, ih]
  | reference _ ih | helper _ ih =>
    rw [List.flatMap_append, List.filter_append, Source.filter_value, ih, List.nil_append]
  | plainPartial _ _ _ ih₁ ih₂ =>
    rw [List.flatMap_append, List.flatMap_append, List.filter_append, List.filter_append,
      ← Source.strip_written, Trim.filter_strip Html.not_isMarkup_of_isWhiteSpace, ih₁, ih₂]
  | block _ _ ih₁ ih₂ =>
    rw [List.flatMap_append, List.flatMap_append, List.filter_append, List.filter_append, ih₁, ih₂]

end Traces

/-! ## Renderings -/

/-- Each output of the rendering is one that the block may come to. -/
def Rendering.Writes (partials : Table Partial) (p : Rendering String) (b : Block) : Prop :=
  ∀ ⦃ctx out ctx'⦄, p ctx = some (.ok out, ctx') →
    ∃ texts srcs, Traces partials b texts srcs ∧ out.toList = srcs.flatMap Source.written

def Task.nodes : Task → Block
  | .block b => b
  | .node n => [n]
  | .script _ => []

def Task.Escapes (P : String → Prop) : Task → Prop
  | .block b => ∀ n ∈ b, n.Escapes P
  | .node n => n.Escapes P
  | .script _ => False

namespace Rendering

variable {α β : Type} {p : Rendering α} {f : α → Rendering β} {partials : Table Partial}

/-- A sequence that succeeds has two parts that do. -/
theorem bind_eq_ok {ctx ctx' : Context} {b : β} (h : (p >>= f) ctx = some (.ok b, ctx')) :
    ∃ a ctx₁, p ctx = some (.ok a, ctx₁) ∧ f a ctx₁ = some (.ok b, ctx') := by
  rcases bind_eq_some h with ⟨e, -, he⟩ | h
  · cases he
  · exact h

end Rendering

namespace Evaluation

open Rendering

variable {reg : Registry} {call : Task → Rendering String} {P : String → Prop}

/-- A tag with two braces writes a value, however that came about. -/
theorem writes_emit (hescape : reg.escape = Html.escape) (p : Rendering String)
    (g : String → String) {partials : Table Partial} {n : Node}
    (hn : ∀ v : String, Traces partials [n] [] (v.toList.map .value ++ [])) :
    (p >>= fun text => pure (reg.emit .escaped (g text))).Writes partials [n] := by
  intro ctx out ctx' h
  obtain ⟨text, ctx₁, -, h⟩ := bind_eq_ok h
  cases h
  refine ⟨_, _, hn (g text), ?_⟩
  rw [List.append_nil, Source.flatMap_value, Registry.emit, hescape]

section
variable (hescape : reg.escape = Html.escape)
variable (hP : ∀ name p, P name → Table.get? reg.partials name = some p →
  ∃ root, p = .template root ∧ ∀ n ∈ root, n.Escapes P)
variable (hcall : ∀ t, t.Escapes P → (call t).Writes reg.partials t.nodes)
include hcall

theorem writes_items {b : Block} (hb : ∀ n ∈ b, n.Escapes P) :
    (items call b).Writes reg.partials b := by
  induction b with
  | nil =>
    intro ctx out ctx' h
    cases h
    exact ⟨[], [], .nil, rfl⟩
  | cons n b ih =>
    intro ctx out ctx' h
    obtain ⟨first, ctx₁, hfirst, h⟩ := bind_eq_ok h
    obtain ⟨others, ctx₂, hothers, h⟩ := bind_eq_ok h
    cases h
    obtain ⟨texts, srcs, htraces, hsrcs⟩ := hcall (.node n) (hb n (by simp)) hfirst
    obtain ⟨texts', srcs', htraces', hsrcs'⟩ := ih (fun m hm => hb m (by simp [hm])) hothers
    refine ⟨_, _, htraces.append htraces', ?_⟩
    rw [String.toList_append, hsrcs, hsrcs', List.flatMap_append]

theorem writes_block {b : Block} (hb : ∀ n ∈ b, n.Escapes P) :
    (block call b).Writes reg.partials b := by
  intro ctx out ctx' h
  obtain ⟨_, ctx₁, -, h⟩ := bind_eq_ok h
  obtain ⟨ctx₂, hitems, -⟩ := andFinally_eq_some h
  exact writes_items hcall hb hitems

include hP in
theorem writes_callPartial {name : String} (hname : P name) (args : List Argument) (trim : Trim) :
    (callPartial reg call name trim).Writes reg.partials [.plainPartial name args trim] := by
  unfold callPartial
  split
  · rename_i p hget
    intro ctx out ctx' h
    obtain ⟨root, rfl, hroot⟩ := hP name p hname hget
    obtain ⟨text, ctx₁, htext, h⟩ := bind_eq_ok h
    cases h
    obtain ⟨texts, srcs, htraces, hsrcs⟩ := hcall (.block root) hroot htext
    refine ⟨_, _, .plainPartial hget htraces .nil, ?_⟩
    rw [Trim.toList_apply, hsrcs, Source.strip_written, List.append_nil]
  · intro ctx out ctx' h
    cases h

include hescape hP in
theorem writes_node {n : Node} (hn : n.Escapes P) : (node reg call n).Writes reg.partials [n] := by
  cases hn with
  | @content t =>
    intro ctx out ctx' h
    cases h
    refine ⟨_, _, .content .nil, ?_⟩
    rw [List.append_nil, Source.flatMap_text]
  | @reference path trim =>
    have hvalue : ∀ v : String, Traces reg.partials [.reference .escaped path trim] []
        (v.toList.map .value ++ []) := fun v => .reference .nil
    rw [node]
    split
    · exact writes_emit hescape _ _ hvalue
    · exact writes_emit hescape _ _ hvalue
  | helper => exact writes_emit hescape _ _ fun v => .helper .nil
  | plainPartial hname => exact writes_callPartial hP hcall hname _ _
  | @block b hb =>
    intro ctx out ctx' h
    obtain ⟨texts, srcs, htraces, hsrcs⟩ := hcall (.block b) hb h
    refine ⟨_, _, .block htraces .nil, ?_⟩
    rw [hsrcs, List.append_nil]

end

end Evaluation

section
variable {reg : Registry} {P : String → Prop}

theorem writes_evaluate (hescape : reg.escape = Html.escape)
    (hP : ∀ name p, P name → Table.get? reg.partials name = some p →
      ∃ root, p = .template root ∧ ∀ n ∈ root, n.Escapes P) (budget : Nat) :
    ∀ t, t.Escapes P → (evaluate reg budget t).Writes reg.partials t.nodes := by
  induction budget with
  | zero => exact fun _ _ _ _ _ h => by cases h
  | succ budget ih =>
    intro t ht
    cases t with
    | block b => exact Evaluation.writes_block ih ht
    | node n => exact Evaluation.writes_node hescape hP ih ht
    | script code => exact ht.elim

end

/-- In a template of texts, of tags with two braces and of partials that are such templates, data
cannot bring markup into the output, nor can helpers. Whatever the two registries and contexts are,
the characters of the two outputs that mean something in HTML are those of the texts that are met,
and each ampersand stands in a text or starts an entity. -/
theorem render_markup {reg₁ reg₂ : Registry} {P : String → Prop} {b : Block}
    {ctx₁ ctx₁' ctx₂ ctx₂' : Context} {out₁ out₂ : String}
    (hescape₁ : reg₁.escape = Html.escape) (hescape₂ : reg₂.escape = Html.escape)
    (hpartials : reg₂.partials = reg₁.partials) (hb : ∀ n ∈ b, n.Escapes P)
    (hP : ∀ name p, P name → Table.get? reg₁.partials name = some p →
      ∃ root, p = .template root ∧ ∀ n ∈ root, n.Escapes P)
    (h₁ : b.render reg₁ ctx₁ = some (.ok out₁, ctx₁'))
    (h₂ : b.render reg₂ ctx₂ = some (.ok out₂, ctx₂')) :
    out₁.toList.filter Html.isMarkup = out₂.toList.filter Html.isMarkup ∧
    ∃ texts, ∀ out, out = out₁ ∨ out = out₂ →
      out.toList.filter Html.isMarkup = (texts.flatMap String.toList).filter Html.isMarkup ∧
      ∃ srcs, Traces reg₁.partials b texts srcs ∧ out.toList = srcs.flatMap Source.written ∧
        ∀ before after, out.toList = before ++ '&' :: after →
          (∃ srcs₁ srcs₂, srcs = srcs₁ ++ .text '&' :: srcs₂ ∧
            before = srcs₁.flatMap Source.written) ∨
          ∃ entity ∈ Html.entities, entity.toList <+: '&' :: after := by
  obtain ⟨texts, srcs₁, htraces₁, hsrcs₁⟩ := writes_evaluate hescape₁ hP _ (.block b) hb h₁
  rw [← hpartials] at hP
  obtain ⟨texts', srcs₂, htraces₂, hsrcs₂⟩ := writes_evaluate hescape₂ hP _ (.block b) hb h₂
  rw [hpartials] at htraces₂
  obtain rfl := htraces₁.texts_unique htraces₂
  have hout : ∀ out, out = out₁ ∨ out = out₂ →
      ∃ srcs, Traces reg₁.partials b texts srcs ∧ out.toList = srcs.flatMap Source.written := by
    rintro out (rfl | rfl)
    · exact ⟨srcs₁, htraces₁, hsrcs₁⟩
    · exact ⟨srcs₂, htraces₂, hsrcs₂⟩
  refine ⟨?_, texts, fun out ho => ?_⟩
  · rw [hsrcs₁, hsrcs₂, htraces₁.filter_written, htraces₂.filter_written]
  · obtain ⟨srcs, htraces, hsrcs⟩ := hout out ho
    refine ⟨by rw [hsrcs, htraces.filter_written], srcs, htraces, hsrcs, fun before after h => ?_⟩
    exact Source.ampersand (hsrcs.symm.trans h)

/-- A host with a helper that always says the same, and with a template that shows a variable. -/
def sayHost (said : String) : Registry where
  helpers := [("say", fun _ _ _ => .done said)]
  partials := [("shown", .template [.content " =", .reference .escaped "x" .none])]

def sayBlock : Block :=
  [.content "<b>", .reference .escaped "x" .none, .plainPartial "shown" [] ⟨true, false⟩,
    .helper .escaped "say" [] none none .none none]

theorem render_markup_sayBlock :
    sayBlock.render (sayHost "<i>") { innermost := [("x", .string "'&")] } = some
      (.ok "<b>&#x27;&amp;=&#x27;&amp;&lt;i&gt;", { innermost := [("x", .string "'&")] }) ∧
    sayBlock.render (sayHost "a=b") {} = some (.ok "<b>=a&#x3D;b", {}) ∧
    "<b>&#x27;&amp;=&#x27;&amp;&lt;i&gt;".toList.filter Html.isMarkup =
      "<b>=a&#x3D;b".toList.filter Html.isMarkup ∧
    ∃ texts srcs, Traces (sayHost "<i>").partials sayBlock texts srcs ∧
      "<b>=a&#x3D;b".toList = srcs.flatMap Source.written := by
  have h₁ : sayBlock.render (sayHost "<i>") { innermost := [("x", .string "'&")] } = some
      (.ok "<b>&#x27;&amp;=&#x27;&amp;&lt;i&gt;", { innermost := [("x", .string "'&")] }) := by
    rfl
  have h₂ : sayBlock.render (sayHost "a=b") {} = some (.ok "<b>=a&#x3D;b", {}) := by rfl
  have hb : ∀ n ∈ sayBlock, n.Escapes (· = "shown") := by
    simp only [sayBlock, List.mem_cons, List.not_mem_nil, or_false, forall_eq_or_imp, forall_eq]
    exact ⟨.content, .reference, .plainPartial rfl, .helper⟩
  have hP : ∀ name p, name = "shown" → Table.get? (sayHost "<i>").partials name = some p →
      ∃ root, p = .template root ∧ ∀ n ∈ root, n.Escapes (· = "shown") := by
    rintro _ p rfl hget
    obtain rfl := Option.some.inj hget
    refine ⟨_, rfl, ?_⟩
    simp only [List.mem_cons, List.not_mem_nil, or_false, forall_eq_or_imp, forall_eq]
    exact ⟨.content, .reference⟩
  have hescape : ∀ said, (sayHost said).escape = Html.escape := fun _ => rfl
  have hpartials : (sayHost "a=b").partials = (sayHost "<i>").partials := rfl
  obtain ⟨hsame, texts, hout⟩ :=
    render_markup (hescape _) (hescape _) hpartials hb hP h₁ h₂
  obtain ⟨-, srcs, htraces, hsrcs, -⟩ := hout _ (.inr rfl)
  exact ⟨h₁, h₂, hsame, texts, srcs, htraces, hsrcs⟩

end BraceTemplate
