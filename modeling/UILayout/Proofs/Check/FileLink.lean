import UILayout.Proofs.Check.Spans
import UILayout.Proofs.Check.Template
import UILayout.Proofs.Hierarchy.Merge
import UILayout.Proofs.Workspace.Again

/-!
# UILayout.Proofs.Check.FileLink

The `file` attribute of an element that declares a desc. When the file is there, the check does not
look for the desc in it: it asks for the node of the declared desc, and reports that the file does not
have the desc where there is no node. There is none when the link leads nowhere, but also when another
link on the way down to the node does.

* `inTurn_eq_flatMap`, `reports_check`: the check of an element is part of that of its document.
* `notInFile_iff`: when the report is made, and when it is right.
* `notInFile_of_broken_parent`: a report that is wrong.
-/

namespace UILayout
namespace Check

open Text Schema Markup Namespace Hierarchy Workspace

/-- The reports on a document are those on its structure and those of the checks of its elements. -/
theorem reports_check (s : Schema) (commands : List Command) {id : DocumentId} {doc : Document}
    (hdoc : (after s commands).context.document? id = some doc) :
    let w := after s commands
    (w.check id).1 = structureReports w.context.schema doc ++
      (boundElements doc).flatMap fun bound => (checkElement w.context doc w.hierarchy bound).1 := by
  intro w
  have hc : Coherent w.context w.hierarchy := (valid_after s commands).coherent
  rw [Workspace.check, hdoc]
  exact congrArg (structureReports w.context.schema doc ++ ·)
    (inTurn_eq_flatMap (steady_checkElement w.context doc) hc (boundElements doc))

/-! ## The report -/

theorem Finding.code_eq_notInFile_iff {finding : Finding} :
    finding.code = "E0509" ↔ ∃ name file, finding = .notInFile name file := by
  constructor
  · intro h
    cases finding with
    | notInFile name file => exact ⟨name, file, rfl⟩
    | selector fault => cases fault <;> simp [Finding.code, Selector.Fault.code, Selector.Code.name] at h
    | _ => simp [Finding.code] at h
  · rintro ⟨name, file, rfl⟩
    rfl

section

variable {ctx : Context} {doc : Document} {h : Hierarchy} {element : ElementId} {e : Element}
  {b : Binding} {desc : DescId} {d : Desc} {file : Attribute}

/-- What the check of an element says about what it declares. -/
theorem mem_checkElement_iff {r : Report} (hr : r.finding.isDeclaration = true)
    (hdeclares : (ctx.schema.slotKind b.slot).declares = true)
    (hdeclared : ctx.names.declared? (doc.ref element) = some desc) :
    r ∈ (checkElement ctx doc h (element, e, b)).1 ↔
      r ∈ (checkDeclaration ctx doc h (doc.ref element) e desc).1 := by
  unfold checkElement
  dsimp only
  rw [if_pos hdeclares, hdeclared]
  dsimp only
  split
  · rfl
  · rw [List.mem_append, or_iff_left]
    intro hattribute
    rw [isDeclaration_checkAttributes hattribute] at hr
    cases hr

theorem exists_notInFile_checkFile_iff (name : String) :
    (∃ r ∈ (checkFile ctx h e desc name file).1, r.finding.code = "E0509") ↔
      (∃ f, ctx.names.child? Namespace.root file.value = some f) ∧ (h.ofDesc ctx desc).1 = none := by
  unfold checkFile
  cases ctx.names.child? Namespace.root file.value with
  | none => simp [Report.plain, Finding.code]
  | some f =>
    generalize h.ofDesc ctx desc = found
    obtain ⟨node?, h'⟩ := found
    cases node? <;> simp [Report.plain, Finding.code]

/-- An element with a `file` attribute that is there is reported when its desc has no node. -/
theorem exists_notInFile_checkElement_iff
    (hdeclares : (ctx.schema.slotKind b.slot).declares = true)
    (hdeclared : ctx.names.declared? (doc.ref element) = some desc)
    (hd : ctx.names.live? desc = some d) (hfile : e.attribute? "file" = some file) :
    (∃ r ∈ (checkElement ctx doc h (element, e, b)).1, r.finding.code = "E0509") ↔
      (∃ f, ctx.names.child? Namespace.root file.value = some f) ∧ (h.ofDesc ctx desc).1 = none := by
  have hdeclaration : checkDeclaration ctx doc h (doc.ref element) e desc =
      checkFile ctx h e desc d.name file := by
    rw [checkDeclaration, (Namespace.live?_eq_some_iff.1 hd).1]
    dsimp only
    rw [hfile]
  rw [← exists_notInFile_checkFile_iff (e := e) d.name, ← hdeclaration]
  refine exists_congr fun r => and_congr_left fun hcode => ?_
  obtain ⟨name, value, hfinding⟩ := Finding.code_eq_notInFile_iff.1 hcode
  exact mem_checkElement_iff (by rw [hfinding]; rfl) hdeclares hdeclared

end

/-! ## When it is right -/

/-- A file is there and has no desc of a name. -/
def MissingInFile (n : Namespace) (file name : String) : Prop :=
  ∃ f, n.child? Namespace.root file = some f ∧ n.child? f name = none

theorem MissingInFile.linksNowhere {ctx : Context} {desc : DescId} {d : Desc} {file : String}
    (h : MissingInFile ctx.names file d.name) (hd : ctx.names.live? desc = some d)
    (hcarries : Carries ctx d "file" file) : LinksNowhere ctx desc := by
  obtain ⟨f, hf, hnone⟩ := h
  exact ⟨d, file, hd, hcarries, by simp [Namespace.follow?, hf, hnone]⟩

/-- It is reported that a file does not have the desc which an element declares, just when the file is
there and some link is broken on the way down to the node of the desc. A desc that the file does not
have is one such link, and always reported; so the report is right just when it is about that one. -/
theorem notInFile_iff (s : Schema) (commands : List Command) {id : DocumentId} {doc : Document}
    {element : ElementId} {e : Element} {b : Binding} {desc : DescId} {file : Attribute}
    (hdoc : (after s commands).context.document? id = some doc)
    (hbound : (element, e, b) ∈ boundElements doc)
    (hdeclares : ((after s commands).context.schema.slotKind b.slot).declares = true)
    (hdeclared : (after s commands).context.names.declared? (doc.ref element) = some desc)
    (hfile : e.attribute? "file" = some file) :
    let w := after s commands
    let reported := ∃ r ∈ (checkElement w.context doc w.hierarchy (element, e, b)).1,
      r.finding.code = "E0509"
    let there := ∃ f, w.context.names.child? Namespace.root file.value = some f
    ∃ d path, w.context.names.live? desc = some d ∧ w.context.names.path? desc = some path ∧
      (reported ↔ there ∧ BrokenAlong w.context path) ∧
      (MissingInFile w.context.names file.value d.name → reported) ∧
      ((reported ↔ MissingInFile w.context.names file.value d.name) ↔
        (there → BrokenAlong w.context path → MissingInFile w.context.names file.value d.name)) := by
  intro w reported there
  have settled : Settled w.context.names := (valid_after s commands).settled
  obtain ⟨history, hnames⟩ := (valid_after s commands).names
  have hdeclared' := hdeclared
  rw [hnames] at hdeclared'
  obtain ⟨d, hd, site, hsite, hplace⟩ := exists_site_of_declared? hdeclared'
  rw [← hnames] at hd
  obtain ⟨path, hpath⟩ := settled.tree.exists_path hd
  have hreported : reported ↔ there ∧ BrokenAlong w.context path :=
    (exists_notInFile_checkElement_iff hdeclares hdeclared hd hfile).trans
      (and_congr_right' ((valid_after s commands).coherent.ofDesc_own settled hd hpath).2)
  have hcarries : Carries w.context d "file" file.value := by
    have helement : w.context.element? (doc.ref element) = some e := by
      rw [Context.element?, Document.ref, (stepped_after s commands).id_eq hdoc]
      exact (Option.bind_eq_some_iff).2 ⟨doc, hdoc, (element?_of_mem_boundElements hbound).1⟩
    exact ⟨site, hsite, e, hplace ▸ helement, by rw [Element.value?, hfile, Option.map_some]⟩
  have hmissing : MissingInFile w.context.names file.value d.name → reported := by
    intro h
    have hnowhere : LinksNowhere w.context desc := h.linksNowhere hd hcarries
    obtain ⟨f, hf, -⟩ := h
    exact hreported.2 ⟨⟨f, hf⟩, path, List.prefix_rfl, desc,
      mergedAt_of_path? settled.tree hd hpath, hnowhere⟩
  refine ⟨d, path, hd, hpath, hreported, hmissing, ?_⟩
  constructor
  · intro hiff hthere hbroken
    exact hiff.1 (hreported.2 ⟨hthere, hbroken⟩)
  · intro hright
    exact ⟨fun h => hright (hreported.1 h).1 (hreported.1 h).2, hmissing⟩

/-- What the check of each element has to go by, with the codes of its reports. -/
def outcomes (w : Workspace) (id : DocumentId) :
    Option (List (ElementId × Binding × Option Attribute × List String)) :=
  (w.context.document? id).map fun doc => (boundElements doc).map fun bound =>
    (bound.1, bound.2.2, bound.2.1.attribute? "file",
      (checkElement w.context doc w.hierarchy bound).1.map (·.finding.code))

theorem exists_of_outcomes {w : Workspace} {id : DocumentId} {element : ElementId} {b : Binding}
    {file? : Option Attribute} {codes : List String}
    {rows : List (ElementId × Binding × Option Attribute × List String)}
    (h : outcomes w id = some rows) (hrow : (element, b, file?, codes) ∈ rows) :
    ∃ doc e, w.context.document? id = some doc ∧ (element, e, b) ∈ boundElements doc ∧
      e.attribute? "file" = file? ∧
      (checkElement w.context doc w.hierarchy (element, e, b)).1.map (·.finding.code) = codes := by
  obtain ⟨doc, hdoc, rfl⟩ := Option.map_eq_some_iff.1 h
  obtain ⟨⟨element', e, b'⟩, hbound, heq⟩ := List.mem_map.1 hrow
  cases heq
  exact ⟨doc, e, hdoc, hbound, rfl, rfl⟩

/-- A frame that takes its content from a file, inside a frame with attributes. -/
def linked (content attributes : String) : List Command :=
  [.setFile "T" ("<Desc>" ++ content ++ "</Desc>").toList,
    .setFile "A" ("<Desc><Frame name=\"P\"" ++ attributes ++
      "><Frame name=\"B\" file=\"T\"/></Frame></Desc>").toList]

/-- The report on a file without the desc is about just that. -/
theorem notInFile_iff_empty :
    let w := after framesOnly (linked "" "")
    ∃ doc e d, w.context.document? 1 = some doc ∧ (2, e, ⟨1, 0⟩) ∈ boundElements doc ∧
      e.attribute? "file" = some (.plain "file" "T" 38) ∧ w.context.names.live? 4 = some d ∧
      MissingInFile w.context.names "T" d.name ∧
      ∃ r ∈ (checkElement w.context doc w.hierarchy (2, e, ⟨1, 0⟩)).1, r.finding.code = "E0509" := by
  intro w
  have houtcomes : outcomes w 1 = some [(0, ⟨0, 0⟩, none, []), (1, ⟨1, 0⟩, none, []),
      (2, ⟨1, 0⟩, some (.plain "file" "T" 38), ["E0509"])] := by decide +kernel
  obtain ⟨hdeclared, hdeclares, hname, hfile⟩ :
      w.context.names.declared? ⟨1, 2⟩ = some 4 ∧
        (w.context.schema.slotKind 1).declares = true ∧
        (w.context.names.live? 4).map (·.name) = some "B" ∧
        (w.context.names.child? Namespace.root "T").map (w.context.names.child? · "B") = some none := by
    decide +kernel
  obtain ⟨doc, e, hdoc, hbound, he, -⟩ := exists_of_outcomes houtcomes
    (List.mem_cons_of_mem _ (List.mem_cons_of_mem _ List.mem_cons_self))
  have hid : doc.id = 1 := (stepped_after framesOnly (linked "" "")).id_eq hdoc
  have hdeclared' : w.context.names.declared? (doc.ref 2) = some 4 := by
    rw [Document.ref, hid, hdeclared]
  obtain ⟨d, path, hd, -, -, hmissing, -⟩ :=
    notInFile_iff framesOnly (linked "" "") hdoc hbound hdeclares hdeclared' he
  have hmissed : MissingInFile w.context.names "T" d.name := by
    obtain ⟨f, hf, hnone⟩ := Option.map_eq_some_iff.1 hfile
    rw [hd, Option.map_some, Option.some.injEq] at hname
    exact ⟨f, hf, hname ▸ hnone⟩
  exact ⟨doc, e, d, hdoc, hbound, he, hd, hmissed, hmissing hmissed⟩

/-- The file has the desc, and the report is made since the file around is not there. -/
theorem notInFile_of_broken_parent :
    let w := after framesOnly (linked "<Frame name=\"B\"/>" " file=\"Missing\"")
    ∃ doc e d, w.context.document? 1 = some doc ∧ (2, e, ⟨1, 0⟩) ∈ boundElements doc ∧
      w.context.names.declared? (doc.ref 2) = some 5 ∧ w.context.names.live? 5 = some d ∧
      e.attribute? "file" = some (.plain "file" "T" 53) ∧
      (∃ r ∈ (checkElement w.context doc w.hierarchy (2, e, ⟨1, 0⟩)).1, r.finding.code = "E0509") ∧
      ¬ MissingInFile w.context.names "T" d.name := by
  intro w
  have houtcomes : outcomes w 1 = some [(0, ⟨0, 0⟩, none, []),
      (1, ⟨1, 0⟩, some (.plain "file" "Missing" 22), ["E0508"]),
      (2, ⟨1, 0⟩, some (.plain "file" "T" 53), ["E0509"])] := by decide +kernel
  obtain ⟨hdeclared, hname, hfile⟩ :
      w.context.names.declared? ⟨1, 2⟩ = some 5 ∧
        (w.context.names.live? 5).map (·.name) = some "B" ∧
        (w.context.names.child? Namespace.root "T").map (w.context.names.child? · "B") =
          some (some 2) := by
    decide +kernel
  obtain ⟨doc, e, hdoc, hbound, he, hcodes⟩ := exists_of_outcomes houtcomes
    (List.mem_cons_of_mem _ (List.mem_cons_of_mem _ List.mem_cons_self))
  have hid : doc.id = 1 := (stepped_after framesOnly _).id_eq hdoc
  obtain ⟨d, hd, hname⟩ := Option.map_eq_some_iff.1 hname
  have hreported : "E0509" ∈ (checkElement w.context doc w.hierarchy (2, e, ⟨1, 0⟩)).1.map
      (·.finding.code) := by
    rw [hcodes]
    exact List.mem_singleton_self _
  refine ⟨doc, e, d, hdoc, hbound, by rw [Document.ref, hid, hdeclared], hd, he,
    List.mem_map.1 hreported, ?_⟩
  rintro ⟨f, hf, hnone⟩
  rw [hf, Option.map_some, ← hname, hnone] at hfile
  cases hfile

end Check
end UILayout
