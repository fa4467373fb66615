import UILayout.Proofs.Check.Template
import UILayout.Proofs.Hierarchy.Plain
import UILayout.Proofs.Namespace.ChildOrder
import UILayout.Proofs.Workspace.Again

/-!
# UILayout.Proofs.Workspace.Children

The order in which the children of a node are listed, after a text of a file has been set. Without
links around it, a desc that only this file declares has the children that the text declares; those
that were there before come first, in the order that they had. The order of the text itself is lost
when children that stay change places, or when new ones are put before them.

* `childNames?_setFile`: the children of a node, and when they are in the order of the text.
* `swapped_children_stay`: two children that change places in the text, and not in the node.
-/

namespace UILayout
namespace Workspace

open Schema Markup Namespace Hierarchy

/-- Setting a text that can be read leaves a desc at a path that no other file declares, with no link
around it. -/
structure Plain (w : Workspace) (path : String) (text : List Char) (read : Document) (id : DescId)
    (place : List String) : Prop where
  reads : Document.ofText (w.allocate path).1 path text = .ok read
  standsAt : (w.setFile path text).2.context.names.path? id = some place
  alone : ∃ d, (w.setFile path text).2.context.names.live? id = some d ∧ DeclaredOnlyIn d read.id
  unlinked : UnlinkedAlong (w.setFile path text).2.context place

/-- The names that a document declares right below a path, in the order of their first declarations. -/
def declaredNames (w : Workspace) (read : Document) (place : List String) : List String :=
  (listing w.context.schema (w.context.schema.bind read)).declaredBelow place

/-- The children are listed in the order of the text just when those that were there before come first
in the text, in the order that they had. -/
theorem childNames?_setFile (s : Schema) (commands : List Command) {path : String} {text : List Char}
    {read : Document} {id : DescId} {place : List String}
    (h : Plain (after s commands) path text read id place) :
    let w := after s commands
    let w' := (w.setFile path text).2
    let before := w.context.names.namesAt id
    let declared := w.declaredNames read place
    let shown := hasWhole w'.context id
    w'.hierarchy.childNames? w'.context id = some ((keptOrder before declared).filter shown) ∧
      (w'.hierarchy.childNames? w'.context id = some (declared.filter shown) ↔
        before.filter (fun name => name ∈ declared && shown name) <+: declared.filter shown) := by
  intro w w' before declared shown
  obtain ⟨history, hnames, -⟩ := stepped_after s commands
  have hvalid : Valid w'.context w'.hierarchy := (valid_after s commands).run (.setFile path text)
  obtain ⟨d, hlive, hown⟩ := h.alone
  have hsync : w'.context.names =
      ((Namespace.after history).sync w.context.schema (w.context.schema.bind read)).names := by
    rw [← hnames]
    exact congrArg Context.names (context_setFile w h.reads)
  have hsettled := settled_after history
  have hnames' : w'.context.names.namesAt id = keptOrder before declared := by
    have hstands : w'.context.names.path? id = some place := h.standsAt
    rw [hsync] at hstands hlive ⊢
    rw [hsettled.namesAt_sync hlive hstands hown, ← hnames]
    rfl
  have hchildren : w'.hierarchy.childNames? w'.context id =
      some ((keptOrder before declared).filter shown) := by
    have htree : IsTree w'.context.names := by
      rw [hsync]
      exact (hsettled.update (.sync _ _)).2.tree
    rw [hvalid.coherent.childNames?_plain htree h.standsAt h.unlinked, hnames']
  refine ⟨hchildren, ?_⟩
  rw [hchildren, Option.some_inj]
  exact eq_listed_iff (Listing.nodup_declaredBelow _ _) shown

/-! ## Two children that change places -/

/-- A file with a frame `F`, and two frames in it. -/
def framesText (first second : String) : List Char :=
  ("<Desc><Frame name=\"F\"><Frame name=\"" ++ first ++ "\"/><Frame name=\"" ++ second ++
    "\"/></Frame></Desc>").toList

/-- The file `A` with the frames `X` and `Y` in `F`. -/
def twoFrames : Workspace := after Check.framesOnly [.setFile "A" (framesText "X" "Y")]

theorem unlinked_twoFrames {id : DescId} {d : Desc}
    (hd : (twoFrames.setFile "A" (framesText "Y" "X")).2.context.names.live? id = some d) :
    Unlinked (twoFrames.setFile "A" (framesText "Y" "X")).2.context d := by
  have hall : ((twoFrames.setFile "A" (framesText "Y" "X")).2.context.names.descs.toList.all fun d =>
      d.sites.all fun site =>
        ((twoFrames.setFile "A" (framesText "Y" "X")).2.context.element? site.element).all fun e =>
          (e.value? "template").isNone && (e.value? "file").isNone) = true := by decide +kernel
  intro site hsite e he
  have hmem := List.mem_of_getElem? (Array.getElem?_toList.trans (Namespace.live?_eq_some_iff.1 hd).1)
  have hone := List.all_eq_true.1 (List.all_eq_true.1 hall d hmem) site hsite
  rw [he, Option.all_some, Bool.and_eq_true, Option.isNone_iff_eq_none, Option.isNone_iff_eq_none] at hone
  exact hone

theorem isTree_twoFrames : IsTree (twoFrames.setFile "A" (framesText "Y" "X")).2.context.names := by
  obtain ⟨history, hnames, -⟩ := stepped_after Check.framesOnly
    [.setFile "A" (framesText "X" "Y"), .setFile "A" (framesText "Y" "X")]
  exact hnames ▸ (settled_after history).tree

/-- Where `F` and its children are, after the change. -/
theorem names_twoFrames :
    let names := (twoFrames.setFile "A" (framesText "Y" "X")).2.context.names
    names.follow? Namespace.root ["A", "F"] = some 2 ∧
      (names.live? 2).map (·.sites.map (·.element.document)) = some [0] ∧
      names.namesAt 2 = ["X", "Y"] ∧
      ∀ name ∈ ["X", "Y"], ((names.child? 2 name).bind names.live?).isSome = true := by
  decide +kernel

theorem reads_twoFrames :
    ∃ read, Document.ofText (twoFrames.allocate "A").1 "A" (framesText "Y" "X") = .ok read ∧
      read.id = 0 ∧ twoFrames.declaredNames read ["A", "F"] = ["Y", "X"] := by
  have hsome : (Document.ofText (twoFrames.allocate "A").1 "A" (framesText "Y" "X")).toOption.map
      (fun read => (read.id, twoFrames.declaredNames read ["A", "F"])) = some (0, ["Y", "X"]) := by
    decide +kernel
  obtain ⟨read, hread, heq⟩ := Option.map_eq_some_iff.1 hsome
  exact ⟨read, ok_of_toOption hread, Prod.mk.inj heq⟩

theorem plain_twoFrames :
    ∃ read, Plain twoFrames "A" (framesText "Y" "X") read 2 ["A", "F"] ∧
      twoFrames.declaredNames read ["A", "F"] = ["Y", "X"] := by
  obtain ⟨read, hread, hid, hdeclared⟩ := reads_twoFrames
  obtain ⟨hfollow, hdocuments, -, -⟩ := names_twoFrames
  obtain ⟨d, hd, hsites⟩ := Option.map_eq_some_iff.1 hdocuments
  refine ⟨read, ⟨hread, ?_, ⟨d, hd, fun hnil => ?_, fun site hsite => ?_⟩,
    fun id d above hd _ _ => unlinked_twoFrames hd⟩, hdeclared⟩
  · exact (isTree_twoFrames.follow?_iff _ _).1 hfollow
  · rw [hnil] at hsites
    cases hsites
  · rw [hid]
    exact List.mem_singleton.1 (hsites ▸ List.mem_map_of_mem hsite)

theorem hasWhole_twoFrames {name : String} (h : name ∈ ["X", "Y"]) :
    hasWhole (twoFrames.setFile "A" (framesText "Y" "X")).2.context 2 name = true := by
  obtain ⟨d, hd⟩ := Option.isSome_iff_exists.1 (names_twoFrames.2.2.2 name h)
  obtain ⟨child, hchild, hlive⟩ := Option.bind_eq_some_iff.1 hd
  exact hasWhole_of_unlinked hchild hlive (unlinked_twoFrames hlive)

/-- When the two frames change places, their order in the node depends on the order before. -/
theorem childNames?_setFile_twoFrames :
    let w' := (twoFrames.setFile "A" (framesText "Y" "X")).2
    ∃ read, Plain twoFrames "A" (framesText "Y" "X") read 2 ["A", "F"] ∧
      (w'.hierarchy.childNames? w'.context 2 =
          some ((twoFrames.declaredNames read ["A", "F"]).filter (hasWhole w'.context 2)) ↔
        (twoFrames.context.names.namesAt 2).filter (fun name =>
            name ∈ twoFrames.declaredNames read ["A", "F"] && hasWhole w'.context 2 name) <+:
          (twoFrames.declaredNames read ["A", "F"]).filter (hasWhole w'.context 2)) := by
  intro w'
  obtain ⟨read, h, -⟩ := plain_twoFrames
  exact ⟨read, h, (childNames?_setFile Check.framesOnly _ h).2⟩

/-- The text has `Y` first now, and the node still has `X` first. -/
theorem swapped_children_stay :
    let w' := (twoFrames.setFile "A" (framesText "Y" "X")).2
    ∃ read, Plain twoFrames "A" (framesText "Y" "X") read 2 ["A", "F"] ∧
      (twoFrames.declaredNames read ["A", "F"]).filter (hasWhole w'.context 2) = ["Y", "X"] ∧
      w'.hierarchy.childNames? w'.context 2 = some ["X", "Y"] := by
  intro w'
  obtain ⟨read, h, hdeclared⟩ := plain_twoFrames
  have hnames : w'.context.names.namesAt 2 = ["X", "Y"] := names_twoFrames.2.2.1
  have hvalid : Valid w'.context w'.hierarchy :=
    valid_after Check.framesOnly [.setFile "A" (framesText "X" "Y"), .setFile "A" (framesText "Y" "X")]
  refine ⟨read, h, ?_, ?_⟩
  · rw [hdeclared]
    exact List.filter_eq_self.2 fun name hname =>
      hasWhole_twoFrames ((List.Perm.swap "X" "Y" []).mem_iff.1 hname)
  · rw [hvalid.coherent.childNames?_plain isTree_twoFrames h.standsAt h.unlinked, hnames]
    exact congrArg some (List.filter_eq_self.2 fun name => hasWhole_twoFrames)

end Workspace
end UILayout
