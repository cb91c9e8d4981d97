import BraceTemplate.Proofs.Grammar.Enclosing
import BraceTemplate.Proofs.Grammar.Nesting
import BraceTemplate.Proofs.Grammar.Refusal
import Mathlib

/-!
# Blocks that bind names

Behind its parameters a block may name what it binds, between two bars. The word before the first
bar ends the parameters, however many there are. But the rule for these blocks wants one parameter
at least: without any, neither this rule nor the one for blocks comes further than the word, and the
text is no template.
-/

namespace BraceTemplate

open Rule

variable {limit k : Nat} {name x w body other : String} {params : List Param}
variable {names : List String} {b : Block} {o : Option Block}

/-! ## Heads -/

/-- What stands between the parameters of a block and its body, where the block binds names. -/
def binding (names : List String) : String := " as |" ++ " ".intercalate names ++ "|\x7d\x7d"

/-- Names with single spaces in between are a list of names. -/
theorem exists_spaced_names (h : ∀ y ∈ names, IsName y) :
    ∃ v, (" ".intercalate (x :: names)).toList = x.toList ++ v ∧ Spaced NameText names v := by
  induction names generalizing x with
  | nil => exact ⟨[], by simp, .nil⟩
  | cons y names ih =>
    obtain ⟨v, hv, hspaced⟩ := ih (x := y) fun z hz => h z (by simp [hz])
    refine ⟨[' '] ++ y.toList ++ v, ?_, .cons (by simp) blanks_space ⟨h y (by simp), rfl⟩ hspaced⟩
    rw [String.intercalate_cons_cons, String.toList_append, String.toList_append, hv]
    simp

theorem Spaced.eq_nil {α : Type} {T : α → List Char → Prop} {v : List Char} (h : Spaced T [] v) :
    v = [] := by
  cases h
  rfl

/-! ## With parameters -/

/-- A body between the tags of a block that binds names, with or without an alternative, is one
such block, if it has parameters. -/
theorem parseWithin_binder (hname : IsName name)
    (hparams : Spaced (ParamText (InnerText (limit + 1))) params w.toList) (hne : params ≠ [])
    (hx : IsName x) (hnames : ∀ y ∈ names, IsName y) (hbody : Enclosable limit body b)
    (hother : Alternative limit o other) :
    parseWithin (limit + 1)
        ("\x7b\x7b#" ++ name ++ w ++ binding (x :: names) ++ body ++ other ++ closeTag name) =
      .ok [.binder name params (x :: names) b o .none] := by
  obtain ⟨v, hv, hspaced⟩ := exists_spaced_names (x := x) hnames
  have htag : TagText (InnerText (limit + 1)) (BodyText (limit + 1))
      (.binder name params (x :: names) b o ⟨⟨false, false⟩, .none, .none⟩) _ :=
    .binder hname hne hparams (List.cons_ne_nil ' ' []) blanks_space blanks_space blanks_nil hx
      hspaced blanks_nil blanks_nil hbody.bodyText hother.otherwiseText
  refine parseWithin_of_tagText htag ?_
  simp [toList_closeTag, binding, hv, Output.opening, Output.closing]

/-! ## Without parameters -/

/-- Where the names of a binder follow a name, the rule for blocks wants the end of the tag. -/
theorem stops_node_names {rInner : Rule (List Param)} {rBody : Rule Block} {s : List Char}
    (hname : IsName name) :
    Stops (Grammar.node rInner rBody)
      (Output.escaped.opening ++ (['#'] ++ (name.toList ++ ([' '] ++ (['a', 's', ' ', '|'] ++ s)))))
      ⟨(['a', 's', ' ', '|'] ++ s).length, .token Output.escaped.closing⟩ := by
  have helse : closesTag ([' '] ++ (['a', 's', ' ', '|'] ++ s)) = false := closesTag_eq_false rfl
  have hnone : WithoutParams ([' '] ++ (['a', 's', ' ', '|'] ++ s)) := .inr rfl
  obtain ⟨f, hf⟩ := blockTag_eq (l := false) hname rfl (fun _ => helse) hnone
  have hblanks : Grammar.blanks ([' '] ++ (['a', 's', ' ', '|'] ++ s)) =
      ⟨.ok () (['a', 's', ' ', '|'] ++ s), []⟩ :=
    silent_blanks.eq_of_reads (reads_blanks.2 ⟨[' '], blanks_space, rfl, rfl⟩)
  have hblock := hf.trans (bind_of_ok hblanks)
  refine Stops.node (.of_eq hblock (stops_close rfl))
    (binderTag_eq hname rfl (fun _ => helse) hnone) ?_
  simp only [List.length_append, List.length_cons, List.length_nil]
  omega

/-- Without parameters the names that a block binds are not read. -/
theorem parseWithin_bareBinder (limit : Nat) (hname : IsName name) (rest : String) :
    parseWithin limit ("\x7b\x7b#" ++ name ++ " as |" ++ rest) =
      .error (.unexpected (.after ("\x7b\x7b#" ++ name ++ " ").toList) ["`\x7d\x7d`"]) := by
  have htext : ("\x7b\x7b#" ++ name ++ " as |" ++ rest).toList =
      ("\x7b\x7b#" ++ name ++ " ").toList ++ (['a', 's', ' ', '|'] ++ rest.toList) := by
    simp
  have hsplit : ("\x7b\x7b#" ++ name ++ " ").toList ++ (['a', 's', ' ', '|'] ++ rest.toList) =
      Output.escaped.opening ++
        (['#'] ++ (name.toList ++ ([' '] ++ (['a', 's', ' ', '|'] ++ rest.toList)))) := by
    simp [Output.opening]
  have hnode : Stops (Grammar.node (Grammar.innerParams limit) (Grammar.blockBody limit)) _ _ :=
    stops_node_names (s := rest.toList) hname
  rw [← hsplit] at hnode
  rw [parseWithin, htext]
  exact parseChars_of_stops (by simp) hnode

/-! ## Both -/

/-- A block that binds names is read as it is written if it has parameters. Without any it is no
template: in place of the names the end of the tag was expected. -/
theorem parse_binding (hname : IsName name)
    (hparams : Spaced (ParamText (InnerText k)) params w.toList)
    (hnest : nestParams params ≤ defaultDepth) (hne : names ≠ [])
    (hnames : ∀ y ∈ names, IsName y) (hbody : Enclosable 63 body b)
    (hother : Alternative 63 o other) :
    (params ≠ [] →
      parse ("\x7b\x7b#" ++ name ++ w ++ binding names ++ body ++ other ++ closeTag name) =
        .ok [.binder name params names b o .none]) ∧
    (params = [] →
      parse ("\x7b\x7b#" ++ name ++ w ++ binding names ++ body ++ other ++ closeTag name) =
        .error (.unexpected (.after ("\x7b\x7b#" ++ name ++ " ").toList) ["`\x7d\x7d`"])) := by
  obtain ⟨x, names, rfl⟩ := List.exists_cons_of_ne_nil hne
  constructor
  · intro hsome
    have hmoved : Spaced (ParamText (InnerText defaultDepth)) params w.toList :=
      hparams.move (moves_innerText _ _) hnest
    exact parseWithin_binder hname hmoved hsome (hnames x (by simp))
      (fun y hy => hnames y (by simp [hy])) hbody hother
  · rintro rfl
    obtain rfl : w = "" := by
      rw [← String.toList_inj]
      exact hparams.eq_nil
    have hbare := parseWithin_bareBinder defaultDepth hname
      (" ".intercalate (x :: names) ++ "|\x7d\x7d" ++ body ++ other ++ closeTag name)
    rw [String.append_empty]
    simpa only [parse, binding, String.append_assoc] using hbare

/-- A variable named like the word before the bars, and an alternative. -/
theorem parse_binding_as :
    IsName "each" ∧ nestParams [Param.path "as"] ≤ defaultDepth ∧ (∀ y ∈ ["x", "y"], IsName y) ∧
    parse ("\x7b\x7b#" ++ "each" ++ " as" ++ binding ["x", "y"] ++ "b" ++ (elseTag ++ "\x7d") ++
        closeTag "each") =
      .ok [.binder "each" [.path "as"] ["x", "y"] [.content "b"] (some [.content "\x7d"]) .none] ∧
    parse ("\x7b\x7b#" ++ "each" ++ "" ++ binding ["x"] ++ "" ++ "" ++ closeTag "each") =
      .error (.unexpected (.after "\x7b\x7b#each ".toList) ["`\x7d\x7d`"]) := by
  have hpath : IsPath "as" := .of_isName (by decide)
  have hparams : Spaced (ParamText (InnerText 1)) [Param.path "as"] " as".toList :=
    .cons (by simp) blanks_space (ParamText.path hpath) .nil
  have hbody : Enclosable 63 "b" [.content "b"] :=
    enclosable_content ⟨by decide, by decide⟩ (by decide)
  refine ⟨by decide, by decide, by decide, ?_, ?_⟩
  · exact (parse_binding (by decide) hparams (by decide) (by decide) (by decide) hbody
      (.some enclosable_brace)).1 (by decide)
  · exact (parse_binding (k := 1) (by decide) .nil (by decide) (by decide) (by decide)
      enclosable_empty .none).2 rfl

/-- A block that binds a name, but has no parameters, is no block of that kind. -/
theorem parse_bareBinder_ne :
    IsName "f" ∧ Spaced (ParamText (InnerText 1)) [] "".toList ∧ IsName "x" ∧
    Enclosable 63 "" [] ∧ Alternative 63 none "" ∧
    parse ("\x7b\x7b#" ++ "f" ++ "" ++ binding ["x"] ++ "" ++ "" ++ closeTag "f") ≠
      .ok [.binder "f" [] ["x"] [] none .none] := by
  refine ⟨by decide, .nil, by decide, enclosable_empty, .none, fun h => ?_⟩
  have hbare : parse ("\x7b\x7b#" ++ "f" ++ "" ++ binding ["x"] ++ "" ++ "" ++ closeTag "f") =
      .error (.unexpected ⟨5, 1, 6⟩ ["`\x7d\x7d`"]) := by cbv
  rw [hbare] at h
  cases h

end BraceTemplate
