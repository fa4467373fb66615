import UILayout.Proofs.Hierarchy.Prefix
import UILayout.Proofs.Outline.Malformed

/-!
# UILayout.Proofs.Outline.Steps

The steps of a path in a session. A path stands for one item at each step, up to the first step that leads
nowhere, and each item is what the path up to there stands for on its own, also when other questions have
been asked in the meantime. The check reports the step that leads nowhere, and the definition of a step is
looked for among what the path up to that step selects.

* `stepDescs_eq_selected`: a step stands for what the path up to it selects.
* `resolve_prefix`: what the first steps of a path stand for.
-/

namespace UILayout

open Schema Markup Namespace

/-- The check of a path that does not lead all the way reports the step behind the last item. -/
theorem Check.referenceReports_of_incomplete {ctx : Context} {path : Selector.Path}
    {found : Hierarchy.Resolution} (hincomplete : found.isComplete = false) {f : Selector.Fragment}
    (hf : path.fragments[found.items.length]? = some f) (a : Attribute) (t : SimpleType) :
    referenceReports ctx a t path found =
      [.plain (.unresolvedPath a.value) (a.sourceSpan f.span)] := by
  have htarget : found.target? = none := by
    rw [Hierarchy.Resolution.target?, hincomplete]
    rfl
  unfold referenceReports
  rw [htarget]
  dsimp only
  rw [hincomplete, hf]
  rfl

namespace Outline

/-- The path that a link follows from node to node. -/
def Link.path? : Link → Option Selector.Path
  | .path p => some p
  | .bind b => some b.target
  | .template _ | .file _ => none

section

variable {ctx : Context} {h h' : Hierarchy} {scope : DescId} {position : Nat} {path : Selector.Path}

theorem descs_of_path? {link : Link} (hpath : link.path? = some path) (hproblems : link.problems = []) :
    link.descs ctx h scope position = stepDescs ctx h scope path position := by
  cases link with
  | path whole =>
    cases hpath
    have hsound : path.hasProblems = false := by
      simpa [Selector.Path.hasProblems, Link.problems] using hproblems
    simp [Link.descs, hsound]
  | bind b =>
    cases hpath
    rfl
  | template value => cases hpath
  | file name => cases hpath

/-- The names of a template path up to a step are those of the path that is cut behind the step. -/
theorem templateDesc?_eq_follow? {value : String} {i : Nat}
    (hi : (Selector.Path.ofText value.toList).fragmentAt? position = some i) :
    templateDesc? ctx value position = ctx.names.follow? Namespace.root
      (((Selector.Path.ofText value.toList).cut (i + 1)).fragmentTexts value.toList) := by
  unfold templateDesc? Selector.Path.fragmentTexts Selector.Path.cut
  dsimp only
  rw [hi, Option.bind_some, List.map_take]

theorem stepDescs_eq_selected (hc : Hierarchy.Coherent ctx h) (hc' : Hierarchy.Coherent ctx h') {i : Nat}
    (hi : path.fragmentAt? position = some i) :
    stepDescs ctx h scope path position = (h'.resolve ctx scope (path.cut (i + 1))).1.selected := by
  rw [stepDescs, hi, hc.selected_cut hc' scope path (List.findIdx?_eq_some_iff_getElem.1 hi).1]
  rfl

end

end Outline

namespace Workspace

open Outline

/-- Questions leave the context as it is. -/
theorem context_questions (s : Schema) (commands : List Command) (questions : List Question) :
    (after s (commands ++ questions.map .ask)).context = (after s commands).context := by
  induction questions using List.reverseRecOn with
  | nil => rw [List.map_nil, List.append_nil]
  | append_singleton questions q ih =>
    rw [List.map_append, ← List.append_assoc, after, List.foldl_append]
    exact (context_ask _ q).trans ih

/-- A path stands for at most one item at each of its steps, and the path of its first steps for the first
of these items, whatever has been asked in between. Where there are fewer items than steps, the check
reports the step behind the last item. The definition of a step is all declarations of what the path selects
when it is cut behind the step; for a template path, of the desc that the names up to there lead to. -/
theorem resolve_prefix (s : Schema) (commands : List Command) (questions : List Question)
    (scope : DescId) (path : Selector.Path) :
    let w := after s commands
    let w' := after s (commands ++ questions.map .ask)
    let found := (w.hierarchy.resolve w.context scope path).1
    let cut := fun k => (w'.hierarchy.resolve w'.context scope (path.cut k)).1
    found.items.length ≤ path.fragments.length ∧
    (∀ k, (cut k).items = found.items.take k) ∧
    (path.isEmpty = false → found.isComplete = false →
      ∃ f, path.fragments[found.items.length]? = some f ∧
        ∀ a t, Check.readPath a = .ok path →
          (Check.checkReference w.context w.hierarchy a t scope).1 =
            [.plain (.unresolvedPath a.value) (a.sourceSpan f.span)]) ∧
    (∀ id doc offset element e b a position link, w.context.document? id = some doc →
      ValueAt doc offset element e b a position → w.context.scopeOf (doc.ref element) = scope →
      Link.ofValue? w.context.names (builtinOf w.context.schema b.type a.name) a.value = some link →
      link.problems = [] → link.path? = some path → ∀ i, path.fragmentAt? position = some i →
        TargetsOf w.context (cut (i + 1)).selected (w.definitionAt id offset).1) ∧
    (∀ id doc offset element e b a position value, w.context.document? id = some doc →
      ValueAt doc offset element e b a position →
      Link.ofValue? w.context.names (builtinOf w.context.schema b.type a.name) a.value =
        some (.template value) →
      path = .ofText value.toList → ∀ i, path.fragmentAt? position = some i →
        TargetsOf w.context (w.context.names.follow? Namespace.root
            ((path.cut (i + 1)).fragmentTexts value.toList)).toList
          (w.definitionAt id offset).1) := by
  intro w w' found cut
  have hcontext : w'.context = w.context := context_questions s commands questions
  have hv : Valid w.context w.hierarchy := valid_after s commands
  have hc' : Hierarchy.Coherent w.context w'.hierarchy :=
    hcontext ▸ (valid_after s (commands ++ questions.map .ask)).coherent
  have hcut : ∀ k, cut k = (w'.hierarchy.resolve w.context scope (path.cut k)).1 :=
    fun k => congrArg (fun ctx => (w'.hierarchy.resolve ctx scope (path.cut k)).1) hcontext
  refine ⟨Strict.length_items_le _ _ _ _, fun k => ?_, fun hpath hincomplete => ?_, ?_, ?_⟩
  · rw [hcut]
    exact hv.coherent.items_cut hc' scope path k
  · obtain ⟨f, -, hf⟩ := Strict.exists_fragment hpath hincomplete
    refine ⟨f, hf, fun a t hread => ?_⟩
    rw [Check.checkReference_eq _ _ hread]
    exact Check.referenceReports_of_incomplete hincomplete hf a t
  · rintro id doc offset element e b a position link hdoc hat rfl hlink hproblems hpath i hi
    rw [hcut, ← stepDescs_eq_selected hv.coherent hc' hi, ← descs_of_path? hpath hproblems]
    exact targetsOf_definitionAt s commands hdoc hat hlink
  · rintro id doc offset element e b a position value hdoc hat hlink rfl i hi
    rw [← templateDesc?_eq_follow? hi]
    exact targetsOf_definitionAt s commands hdoc hat hlink

/-- A document with a frame that a bind of the document leads to. -/
def boundFrame : List Command :=
  [.setFile "A" "<Desc x=\"$this/Dialog.V\" y=\"\"><Frame name=\"Dialog\" x=\"\" y=\"\"/></Desc>".toList]

/-- The definition of the second step of the bind is the frame, also after a check. -/
theorem resolve_prefix_boundFrame :
    let w := after wildSchema boundFrame
    let w' := after wildSchema (boundFrame ++ [Question.check 0].map .ask)
    ∃ doc element e b a position link path, w.context.document? 0 = some doc ∧
      ValueAt doc 18 element e b a position ∧
      Link.ofValue? w.context.names (builtinOf w.context.schema b.type a.name) a.value = some link ∧
      link.problems = [] ∧ link.path? = some path ∧ path.fragmentAt? position = some 1 ∧
      TargetsOf w.context (w'.hierarchy.resolve w'.context (w.context.scopeOf (doc.ref element))
        (path.cut 2)).1.selected (w.definitionAt 0 18).1 ∧
      (w.definitionAt 0 18).1.map (·.name) = ["A/Dialog"] := by
  intro w w'
  have hcomputed : ((w.context.document? 0).bind (valueAt? · 18)).map (fun v =>
      (Link.ofValue? w.context.names (builtinOf w.context.schema v.2.2.1.type v.2.2.2.1.name)
        v.2.2.2.1.value).map fun link =>
          (link.problems.isEmpty, link.path?.map (·.fragmentAt? v.2.2.2.2))) =
      some (some (true, some (some 1))) := by decide +kernel
  obtain ⟨doc, element, e, b, a, position, hdoc, hat, hlink⟩ := exists_valueAt hcomputed
  obtain ⟨link, hlink, heq⟩ := Option.map_eq_some_iff.1 hlink
  obtain ⟨hproblems, hpath⟩ := Prod.mk.inj heq
  obtain ⟨path, hpath, hi⟩ := Option.map_eq_some_iff.1 hpath
  have hsound := List.isEmpty_iff.1 hproblems
  obtain ⟨-, -, -, hdefinition, -⟩ := resolve_prefix wildSchema boundFrame [.check 0]
    (w.context.scopeOf (doc.ref element)) path
  have htargets := hdefinition 0 doc 18 element e b a position link hdoc hat rfl hlink hsound hpath 1 hi
  exact ⟨doc, element, e, b, a, position, link, path, hdoc, hat, hlink, hsound, hpath, hi, htargets,
    by decide +kernel⟩

end Workspace
end UILayout
