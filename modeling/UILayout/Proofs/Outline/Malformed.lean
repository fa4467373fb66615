import UILayout.Proofs.Outline.Typing

/-!
# UILayout.Proofs.Outline.Malformed

Values that are read with faults, and where they lead all the same. What can be read of such a value is
kept. A path with faults is not followed. The faults of a bind stand in the bind and not in its target,
so the target is followed as if there were none, and for a template path nobody asks whether there are any.

* `definitionAt_eq_nil_iff`: a link leads nowhere when it leads to no desc but the root.
* `definitionAt_malformed`: when a value with faults leads nowhere.
* `malformed_followed`: a template path and a bind with faults, which lead somewhere.
-/

namespace UILayout

open Schema Markup Namespace

namespace Outline

section

variable {ctx : Context} {position : Nat}

/-- The step of a template path leads below the root. -/
theorem templateDesc?_ne_root (tree : IsTree ctx.names) {value : String} :
    templateDesc? ctx value position ≠ some Namespace.root := by
  intro hroot
  obtain ⟨i, hi, hfollow⟩ := Option.bind_eq_some_iff.1 hroot
  rw [tree.follow?_iff, tree.path?_root] at hfollow
  have hlt := (List.findIdx?_eq_some_iff_getElem.1 hi).1
  have hlength := congrArg List.length (Option.some.inj hfollow)
  rw [List.length_nil, List.length_take, Selector.Path.fragmentTexts, List.length_map] at hlength
  omega

end

section

variable (s : Schema) (commands : List Workspace.Command) {id : DocumentId} {doc : Document}
  {offset : Nat} {element : ElementId} {e : Element} {b : Binding} {a : Attribute} {position : Nat}
  {link : Link}

theorem definitionAt_eq_nil_iff (hdoc : (Workspace.after s commands).context.document? id = some doc)
    (hat : ValueAt doc offset element e b a position)
    (hlink : let ctx := (Workspace.after s commands).context
      Link.ofValue? ctx.names (builtinOf ctx.schema b.type a.name) a.value = some link) :
    let w := Workspace.after s commands
    (w.definitionAt id offset).1 = [] ↔
      ∀ x ∈ link.descs w.context w.hierarchy (w.context.scopeOf (doc.ref element)) position,
        x = Namespace.root := by
  intro w
  obtain ⟨htargets, hlive⟩ := Workspace.targetsOf_definitionAt s commands hdoc hat hlink
  rw [htargets, List.flatMap_eq_nil_iff]
  refine forall₂_congr fun x hx => ?_
  obtain ⟨d, hd, -⟩ := hlive x hx
  exact Workspace.descTargets_eq_nil_iff s commands hd

/-- A path with faults leads nowhere. A bind with faults leads nowhere just when the step of its target at
the offset stands for no desc but the root, and a template path with faults just when the names that could
be read up to the offset lead nowhere. -/
theorem definitionAt_malformed
    (hdoc : (Workspace.after s commands).context.document? id = some doc)
    (hat : ValueAt doc offset element e b a position)
    (hlink : let ctx := (Workspace.after s commands).context
      Link.ofValue? ctx.names (builtinOf ctx.schema b.type a.name) a.value = some link)
    (hproblems : link.problems ≠ []) :
    let w := Workspace.after s commands
    let scope := w.context.scopeOf (doc.ref element)
    (∀ path, link = .path path → (w.definitionAt id offset).1 = []) ∧
    (∀ bind, link = .bind bind → ((w.definitionAt id offset).1 = [] ↔
      ∀ x ∈ stepDescs w.context w.hierarchy scope bind.target position, x = Namespace.root)) ∧
    (∀ value, link = .template value → ((w.definitionAt id offset).1 = [] ↔
      templateDesc? w.context value position = none)) := by
  intro w scope
  have hnil := definitionAt_eq_nil_iff s commands hdoc hat hlink
  refine ⟨?_, ?_, ?_⟩
  · rintro path rfl
    have hfaulty : path.hasProblems = true := by
      simpa [Selector.Path.hasProblems, Link.problems] using hproblems
    refine hnil.2 fun x hx => ?_
    simp only [Link.descs, hfaulty, if_true] at hx
    cases hx
  · rintro bind rfl
    exact hnil
  · rintro value rfl
    have hroot : templateDesc? w.context value position ≠ some Namespace.root :=
      templateDesc?_ne_root (Workspace.valid_after s commands).settled.tree
    refine hnil.trans ⟨fun h => ?_, fun h x hx => ?_⟩
    · refine Option.eq_none_iff_forall_ne_some.2 fun x hx => hroot ?_
      rw [hx, h x (Option.mem_toList.2 hx)]
    · rw [Link.descs, h] at hx
      cases hx

end

/-! ## A template path and a bind with faults -/

/-- A document that names the frame `T/Dialog` with a character too many, and binds a property of itself. -/
def faulty : List Workspace.Command := dialogs " x=\"T/#/Dialog\" y=\"$this/#.V\""

theorem definitionAt_malformed_template :
    let w := Workspace.after wildSchema faulty
    ∃ doc element e b a position, w.context.document? 1 = some doc ∧
      ValueAt doc 13 element e b a position ∧
      Link.ofValue? w.context.names (builtinOf w.context.schema b.type a.name) a.value =
        some (.template "T/#/Dialog") ∧
      (Link.template "T/#/Dialog").problems ≠ [] ∧
      ((w.definitionAt 1 13).1 = [] ↔ templateDesc? w.context "T/#/Dialog" position = none) := by
  intro w
  have hcomputed : ((w.context.document? 1).bind (valueAt? · 13)).map (fun v =>
      Link.ofValue? w.context.names (builtinOf w.context.schema v.2.2.1.type v.2.2.2.1.name)
        v.2.2.2.1.value) = some (some (.template "T/#/Dialog")) := by decide +kernel
  have hproblems : (Link.template "T/#/Dialog").problems ≠ [] := by decide +kernel
  obtain ⟨doc, element, e, b, a, position, hdoc, hat, hlink⟩ := exists_valueAt hcomputed
  obtain ⟨-, -, htemplate⟩ := definitionAt_malformed wildSchema faulty hdoc hat hlink hproblems
  exact ⟨doc, element, e, b, a, position, hdoc, hat, hlink, hproblems, htemplate _ rfl⟩

/-- Both values are read with faults, and lead to the frame and to the document itself. -/
theorem malformed_followed :
    let w := Workspace.after wildSchema faulty
    wildSchema.Loaded ∧
      ([13, 26].map fun offset => (w.definitionAt 1 offset).1.map (·.name)) = [["T/Dialog"], ["A"]] ∧
      ∀ offset ∈ [13, 26], ∃ doc element e b a position link, w.context.document? 1 = some doc ∧
        ValueAt doc offset element e b a position ∧
        Link.ofValue? w.context.names (builtinOf w.context.schema b.type a.name) a.value = some link ∧
        link.problems ≠ [] := by
  intro w
  refine ⟨loaded_wildSchema, by decide +kernel, fun offset hoffset => ?_⟩
  have hcomputed : ∀ offset ∈ [13, 26], ((w.context.document? 1).bind (valueAt? · offset)).map (fun v =>
      (Link.ofValue? w.context.names (builtinOf w.context.schema v.2.2.1.type v.2.2.2.1.name)
        v.2.2.2.1.value).map (·.problems.isEmpty)) = some (some false) := by decide +kernel
  obtain ⟨doc, element, e, b, a, position, hdoc, hat, hlink⟩ := exists_valueAt (hcomputed offset hoffset)
  obtain ⟨link, hlink, hproblems⟩ := Option.map_eq_some_iff.1 hlink
  exact ⟨doc, element, e, b, a, position, link, hdoc, hat, hlink, List.isEmpty_eq_false_iff.1 hproblems⟩

end Outline
end UILayout
