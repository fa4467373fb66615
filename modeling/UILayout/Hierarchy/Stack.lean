import Mathlib.Data.List.Nodup
import UILayout.Hierarchy.Node

/-!
# UILayout.Hierarchy.Stack

Dropping a node with all below it, done with a stack of the nodes that are still to be dropped. A node
that is dropped puts the children that it has had made onto the stack, and forgets them.

* `length_liveNodes_drop_lt`: every node that is dropped was live until then, so the stack runs empty.
-/

namespace UILayout
namespace Hierarchy

open Namespace

section

variable {h : Hierarchy} {id j : NodeId} {n : Node}

/-! ## Live nodes -/

def liveNodes (h : Hierarchy) : List NodeId :=
  (List.range h.nodes.size).filter fun id => (h.live? id).isSome

theorem live?_eq_some_iff : h.live? id = some n ↔ h.nodes[id]? = some n ∧ n.live = true := by
  simp [live?, Option.filter_eq_some_iff]

theorem node?_of_live? (hn : h.live? id = some n) : h.node? id = some n :=
  (live?_eq_some_iff.1 hn).1

theorem lt_size_of_live? (hn : h.live? id = some n) : id < h.nodes.size :=
  (Array.getElem?_eq_some_iff.1 (live?_eq_some_iff.1 hn).1).1

theorem mem_liveNodes_iff : id ∈ h.liveNodes ↔ ∃ n, h.live? id = some n := by
  rw [liveNodes, List.mem_filter, List.mem_range, Option.isSome_iff_exists]
  exact ⟨And.right, fun hlive => ⟨lt_size_of_live? hlive.choose_spec, hlive⟩⟩

theorem nodup_liveNodes (h : Hierarchy) : h.liveNodes.Nodup := List.nodup_range.filter _

theorem live?_modify (h : Hierarchy) (id j : NodeId) (f : Node → Node) :
    (h.modify id f).live? j =
      if id = j then (h.nodes[j]?.map f).filter (·.live) else h.live? j := by
  unfold live? modify
  rw [Array.getElem?_modify]
  split <;> rfl

theorem live?_drop (h : Hierarchy) (id j : NodeId) :
    (h.drop id).live? j = if j = id then none else h.live? j := by
  unfold drop
  split
  · show (h.modify id fun n => { n with live := false, read := [], children? := none }).live? j = _
    rw [live?_modify]
    by_cases hj : j = id
    · subst hj
      rw [if_pos rfl, if_pos rfl]
      cases h.nodes[j]? <;> rfl
    · rw [if_neg (Ne.symm hj), if_neg hj]
  · rename_i hnone
    split
    · rename_i hj
      rw [hj]
      exact Option.not_isSome_iff_eq_none.1 hnone
    · rfl

theorem size_drop (h : Hierarchy) (id : NodeId) : (h.drop id).nodes.size = h.nodes.size := by
  unfold drop
  split
  · exact Array.size_modify
  · rfl

theorem liveNodes_drop (h : Hierarchy) (id : NodeId) :
    (h.drop id).liveNodes = h.liveNodes.erase id := by
  rw [(nodup_liveNodes h).erase_eq_filter]
  unfold liveNodes
  rw [size_drop, List.filter_filter]
  refine List.filter_congr fun j _ => ?_
  rw [live?_drop]
  by_cases hj : j = id <;> simp [hj]

/-- The live nodes are one less. -/
theorem length_liveNodes_drop (hn : h.live? id = some n) :
    (h.drop id).liveNodes.length + 1 = h.liveNodes.length := by
  have hmem : id ∈ h.liveNodes := mem_liveNodes_iff.2 ⟨n, hn⟩
  rw [liveNodes_drop, List.length_erase_of_mem hmem]
  have hpos := List.length_pos_of_mem hmem
  omega

theorem length_liveNodes_drop_lt (hn : h.live? id = some n) :
    (h.drop id).liveNodes.length < h.liveNodes.length := by
  have := length_liveNodes_drop hn
  omega

end

/-! ## Dropping what is on a stack -/

/-- Drops the nodes on a stack, the uppermost first, and all below them. -/
def dropStack (h : Hierarchy) : List NodeId → Hierarchy
  | [] => h
  | id :: rest =>
    match _hn : h.live? id with
    | none => dropStack h rest
    | some n => dropStack (h.drop id) (n.builtChildren.reverse ++ rest)
  termination_by stack => (h.liveNodes.length, stack.length)
  decreasing_by
    · exact Prod.Lex.right _ (by simp)
    · exact Prod.Lex.left _ _ (length_liveNodes_drop_lt _hn)

/-- A node is no longer in its place: its parent makes it anew when asked, and so is the root. -/
def vacate (h : Hierarchy) (n : Node) : Hierarchy :=
  match n.parent? with
  | some parent => h.reopen parent n.name n.descs
  | none => { h with root? := none }

theorem detach_of_none {h : Hierarchy} {id : NodeId} (hn : h.live? id = none) : h.detach id = h := by
  unfold detach
  rw [hn]

theorem detach_of_some {h : Hierarchy} {id : NodeId} {n : Node} (hn : h.live? id = some n) :
    h.detach id = (h.subtree id).foldl drop (h.vacate n) := by
  unfold detach
  rw [hn]
  rfl

/-- Drops a live node with all below it. -/
def uproot (h : Hierarchy) (id : NodeId) : Hierarchy :=
  match h.live? id with
  | none => h
  | some n => (h.vacate n).dropStack [id]

/-- Drops what was made from something that has changed. -/
def discard (h : Hierarchy) (changes : Changes) : Hierarchy :=
  if changes.isEmpty || h.nodes.isEmpty then h
  else
    let h := (h.staleNodes changes).foldl uproot h
    if sweepLimit < h.dropped ∧ h.nodes.size < h.dropped * 2 then .empty else h

end Hierarchy
end UILayout
