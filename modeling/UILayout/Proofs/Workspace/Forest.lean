import UILayout.Proofs.Hierarchy.Stack
import UILayout.Proofs.Workspace.Session

/-!
# UILayout.Proofs.Workspace.Forest

The nodes that a workspace keeps are a tree at every point, whatever has been done with it: commands,
walks that go on from nodes found earlier, and selections.

* `valid_afterAll`: the invariant of the workspace after everything that can be done.
* `forest_afterAll`: the tree, and what a change leaves of it.
-/

namespace UILayout

open Schema Namespace

namespace Hierarchy.Coherent

variable {ctx : Context} {h : Hierarchy} {id : NodeId} {n : Node}

/-- Every live node stands for the views from it up to the root. -/
theorem exists_denotes (hc : Coherent ctx h) (hn : h.live? id = some n) : ∃ l, h.Denotes id l := by
  induction id using Nat.strongRecOn generalizing n with
  | ind id ih =>
    cases hp : n.parent? with
    | none => exact ⟨_, .top hn hp⟩
    | some p =>
      obtain ⟨hlt, pn, hpn, -⟩ := (hc.hung hn).parent hp
      obtain ⟨l, hl⟩ := ih p hlt hpn
      exact ⟨_, .under hn hp hl⟩

theorem exists_nodesAre (hc : Coherent ctx h) {ids : List NodeId}
    (hids : ∀ id ∈ ids, (h.live? id).isSome) : ∃ ls, NodesAre h ids ls := by
  induction ids with
  | nil => exact ⟨[], .nil⟩
  | cons id rest ih =>
    rw [List.forall_mem_cons] at hids
    obtain ⟨n, hn⟩ := Option.isSome_iff_exists.1 hids.1
    obtain ⟨l, hl⟩ := hc.exists_denotes hn
    obtain ⟨ls, hls⟩ := ih hids.2
    exact ⟨l :: ls, .cons hl hls⟩

end Hierarchy.Coherent

namespace Workspace

/-- What can be done with a workspace by those who remember nodes that they have found. A number that
is remembered names no node once the node has been dropped, and is passed over then. -/
inductive Action where
  | run (c : Command)
  | goOn (found : List NodeId) (moves : List Hierarchy.Move)
  | select (id : NodeId) (path : Selector.Path)

def act (w : Workspace) : Action → Workspace
  | .run c => w.run c
  | .goOn found moves =>
    let live := found.filter fun id => (w.hierarchy.live? id).isSome
    (w.keep (w.hierarchy.walk w.context live moves)).2
  | .select id path =>
    if (w.hierarchy.live? id).isSome then (w.keep (w.hierarchy.select w.context id path)).2 else w

/-- The workspace after some actions, the first of which finds it empty. -/
def afterAll (s : Schema) (actions : List Action) : Workspace := actions.foldl act (.empty s)

theorem Valid.act {w : Workspace} (hv : Valid w.context w.hierarchy) (a : Action) :
    Valid (w.act a).context (w.act a).hierarchy := by
  cases a with
  | run c => exact hv.run c
  | goOn found moves =>
    have hlive : ∀ id ∈ found.filter fun id => (w.hierarchy.live? id).isSome,
        (w.hierarchy.live? id).isSome := fun id hid => (List.mem_filter.1 hid).2
    obtain ⟨ls, hls⟩ := hv.coherent.exists_nodesAre hlive
    exact ⟨hv.names, (hv.coherent.walk hls moves).coherent⟩
  | select id path =>
    unfold Workspace.act
    dsimp only
    split
    · rename_i hlive
      obtain ⟨n, hn⟩ := Option.isSome_iff_exists.1 hlive
      obtain ⟨l, hl⟩ := hv.coherent.exists_denotes hn
      exact ⟨hv.names, (hv.coherent.selectSteps hl path.fragments).coherent⟩
    · exact hv

theorem valid_afterAll (s : Schema) (actions : List Action) :
    Valid (afterAll s actions).context (afterAll s actions).hierarchy := by
  induction actions using List.reverseRecOn with
  | nil => exact ⟨⟨[], rfl⟩, .empty _⟩
  | append_singleton actions a ih =>
    rw [afterAll, List.foldl_append]
    exact ih.act a

/-- At every point the live nodes are a tree and are counted right. Whatever changes then, the nodes
that were made from it are dropped with all below them, each once, whether a stack is used for that or
not; and what is left is a tree again. -/
theorem forest_afterAll (s : Schema) (actions : List Action) :
    let h := (afterAll s actions).hierarchy
    h.Forest ∧ ∀ changes : Changes,
      (h.invalidate changes).Forest ∧
      (∃ h', h.Pruned (h.staleNodes changes) h' ∧
        (h.invalidate changes = h' ∨ h.invalidate changes = .empty ∧
          Hierarchy.sweepLimit < h'.dropped ∧ h'.nodes.size < h'.dropped * 2)) ∧
      h.discard changes = h.invalidate changes := by
  have hc := (valid_afterAll s actions).coherent
  exact ⟨hc.forest, fun changes =>
    ⟨(hc.invalidate changes).1.forest, hc.pruned_invalidate changes, hc.discard_eq changes⟩⟩

end Workspace
end UILayout
