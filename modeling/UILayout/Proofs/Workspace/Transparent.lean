import UILayout.Proofs.Workspace.Session

/-!
# UILayout.Proofs.Workspace.Transparent

Keeping nodes between questions shows in no answer. After every session, a question is answered as if
the hierarchy had just been emptied, and all that is kept is what would be made anew.

* `Coherent.current`: what is kept in a coherent hierarchy is up to date.
* `alike_ask`: two coherent hierarchies answer alike.
* `transparent`: the answers after a session.
-/

namespace UILayout

open Namespace

namespace Hierarchy

/-- Each node is what would be made in its place now, and its children are listed as they would be
listed now; a child that is kept as missing cannot be made. -/
structure Current (ctx : Context) (h : Hierarchy) : Prop where
  root : ∀ {id : NodeId} {n : Node}, h.live? id = some n → n.parent? = none → n.view = Node.root.view
  node : ∀ {id p : NodeId} {n : Node}, h.live? id = some n → n.parent? = some p →
    ∃ pn made, h.live? p = some pn ∧
      (groupChildren ctx.names pn.sources).get? n.name = some n.descs ∧
      makeNode ctx n.name n.descs p = .ok made ∧ made.view = n.view
  listed : ∀ {id : NodeId} {n : Node} {m : NameMap Branch}, h.live? id = some n →
    n.children? = some m → m.keys = (groupChildren ctx.names n.sources).keys
  pending : ∀ {id : NodeId} {n : Node} {m : NameMap Branch} {name : String} {descs : List DescId},
    h.live? id = some n → n.children? = some m → m.get? name = some (.pending descs) →
    (groupChildren ctx.names n.sources).get? name = some descs
  missing : ∀ {id : NodeId} {n : Node} {m : NameMap Branch} {name : String}, h.live? id = some n →
    n.children? = some m → m.get? name = some .missing →
    ∃ descs read, (groupChildren ctx.names n.sources).get? name = some descs ∧
      makeNode ctx name descs id = .error read

section

variable {ctx : Context} {h : Hierarchy}

theorem Coherent.current (hc : Coherent ctx h) : Current ctx h := by
  refine ⟨?_, ?_, ?_, ?_, ?_⟩
  · intro id n hn hp
    exact ((hc.hung hn).root hp).2
  · intro id p n hn hp
    obtain ⟨pn, hpn, hslot⟩ := hc.slot_of_parent hn hp
    refine ⟨pn, n.view.node p (readOf ctx n.descs), hpn, hslot, ?_, rfl⟩
    rw [makeNode_eq, ((hc.hung hn).made hp).1]
  · intro id n m hn hm
    exact (hc.stocked hn).keys hm
  · intro id n m name descs hn hm hb
    obtain ⟨descs', hslot, hok⟩ := hc.slot_of_branch hn hm hb
    cases hok
    exact hslot
  · intro id n m name hn hm hb
    obtain ⟨descs, hslot, hok⟩ := hc.slot_of_branch hn hm hb
    cases hok with
    | missing hnone _ =>
      refine ⟨descs, readOf ctx descs, hslot, ?_⟩
      rw [makeNode_eq, hnone]

end

end Hierarchy

namespace Workspace

/-- The workspace with no node made. -/
def forget (w : Workspace) : Workspace := { w with hierarchy := .empty }

/-- The same answer, apart from the numbers of nodes. -/
inductive Alike (h h' : Hierarchy) : Answer → Answer → Prop where
  | reports (found : List Check.Report) : Alike h h' (.reports found) (.reports found)
  | targets (found : List Outline.Target) : Alike h h' (.targets found) (.targets found)
  | resolution (found : Hierarchy.Resolution) : Alike h h' (.resolution found) (.resolution found)
  | nodes {found found' : List (List NodeId)} (hr : Hierarchy.Renamed h h' found found') :
      Alike h h' (.nodes found) (.nodes found')

theorem alike_ask {w : Workspace} (hc : Hierarchy.Coherent w.context w.hierarchy) (q : Question) :
    Alike (w.ask q).2.hierarchy (w.forget.ask q).2.hierarchy (w.ask q).1 (w.forget.ask q).1 := by
  have hempty : Hierarchy.Coherent w.context .empty := .empty _
  cases q with
  | check id =>
    have heq : (w.check id).1 = (w.forget.check id).1 := (steady_check w id).agrees hc hempty
    simp only [ask, heq]
    exact .reports _
  | definitionAt id offset =>
    have heq : (w.definitionAt id offset).1 = (w.forget.definitionAt id offset).1 :=
      (steady_definitionAt w id offset).agrees hc hempty
    simp only [ask, heq]
    exact .targets _
  | resolve id path =>
    have heq : (w.resolve id path).1 = (w.forget.resolve id path).1 :=
      (Hierarchy.steady_resolve w.context id (.ofText path)).agrees hc hempty
    simp only [ask, heq]
    exact .resolution _
  | walk moves =>
    have hkept := hc.walk .nil moves
    have hanew := hempty.walk .nil moves
    exact .nodes (Hierarchy.renamed_of_walkIs hkept.coherent hanew.coherent hkept.answer hanew.answer)

theorem transparent (s : Schema) (commands : List Command) (q : Question) :
    let w := after s commands
    Alike (w.ask q).2.hierarchy (w.forget.ask q).2.hierarchy (w.ask q).1 (w.forget.ask q).1 ∧
      Hierarchy.Current w.context w.hierarchy := by
  have hv := valid_after s commands
  exact ⟨alike_ask hv.coherent q, hv.coherent.current⟩

end Workspace
end UILayout
