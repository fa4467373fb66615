import UILayout.Hierarchy.Build
import UILayout.Hierarchy.Stack

/-!
# UILayout.Proofs.Hierarchy.Tally

The count of dropped nodes. Every node is live or has been dropped and counted, once; and a node that
has been dropped has forgotten its children.

* `Tallied.modify`, `Tallied.add`, `Tallied.drop`: what changes a hierarchy keeps the count right.
* `Tallied.detach`: dropping a node with all below it.
-/

namespace UILayout
namespace Hierarchy

structure Tallied (h : Hierarchy) : Prop where
  counted : h.liveNodes.length + h.dropped = h.nodes.size
  bare : ∀ {id : NodeId} {n : Node}, h.node? id = some n → n.live = false → n.children? = none

section

variable {h : Hierarchy} {id : NodeId} {n : Node}

theorem size_modify (h : Hierarchy) (id : NodeId) (f : Node → Node) :
    (h.modify id f).nodes.size = h.nodes.size := Array.size_modify

theorem node?_modify (h : Hierarchy) (id j : NodeId) (f : Node → Node) :
    (h.modify id f).node? j = if id = j then (h.node? j).map f else h.node? j := by
  unfold node? modify
  rw [Array.getElem?_modify]

/-- What becomes of a node that is dropped; a second time makes no difference. -/
def Node.gone (n : Node) : Node :=
  if n.live then { n with live := false, read := [], children? := none } else n

theorem Node.live_gone (n : Node) : n.gone.live = false := by
  unfold Node.gone
  split
  · rfl
  · exact Bool.eq_false_iff.2 ‹_›

theorem Node.gone_gone (n : Node) : n.gone.gone = n.gone := by
  rw [Node.gone, if_neg (Bool.eq_false_iff.1 n.live_gone)]

theorem node?_drop (h : Hierarchy) (id j : NodeId) :
    (h.drop id).node? j = if j = id then (h.node? j).map Node.gone else h.node? j := by
  unfold drop
  by_cases hj : j = id
  · subst hj
    rw [if_pos rfl]
    cases hn : h.node? j with
    | none =>
      have hnone : h.live? j = none := by rw [live?, ← node?, hn, Option.filter_none]
      rw [hnone]
      exact hn
    | some n =>
      by_cases hl : n.live = true
      · have hlive : h.live? j = some n := live?_eq_some_iff.2 ⟨hn, hl⟩
        rw [hlive, Option.isSome_some, if_pos rfl, Option.map_some, Node.gone, if_pos hl]
        show (h.modify j _).node? j = _
        rw [node?_modify, if_pos rfl, hn]
        rfl
      · have hnone : h.live? j = none := by rw [live?, ← node?, hn, Option.filter_some, if_neg hl]
        rw [hnone, Option.map_some, Node.gone, if_neg hl]
        exact hn
  · rw [if_neg hj]
    split
    · show (h.modify id _).node? j = _
      rw [node?_modify, if_neg (Ne.symm hj)]
    · rfl

/-- A node that is dropped passes from the live ones to those that are counted. -/
theorem counted_drop (h : Hierarchy) (id : NodeId) :
    (h.drop id).liveNodes.length + (h.drop id).dropped = h.liveNodes.length + h.dropped := by
  cases hn : h.live? id with
  | none =>
    have heq : h.drop id = h := by
      unfold drop
      rw [hn]
      rfl
    rw [heq]
  | some n =>
    have hdropped : (h.drop id).dropped = h.dropped + 1 := by
      unfold drop
      rw [hn]
      rfl
    have hlength := length_liveNodes_drop hn
    omega

namespace Tallied

theorem empty : Tallied .empty := by
  refine ⟨rfl, fun {id n} hn => ?_⟩
  simp [node?, Hierarchy.empty] at hn

/-- The count does not depend on which node is the root. -/
theorem withRoot? (ht : Tallied h) (root? : Option NodeId) : Tallied { h with root? := root? } :=
  ⟨ht.counted, ht.bare⟩

/-- A change of one node that leaves it live or dropped, as it was. -/
theorem modify (ht : Tallied h) {f : Node → Node}
    (hlive : ∀ n, h.node? id = some n → (f n).live = n.live)
    (hbare : ∀ n, h.node? id = some n → n.live = false → n.children? = none →
      (f n).children? = none) : Tallied (h.modify id f) := by
  constructor
  · have hsame : (h.modify id f).liveNodes = h.liveNodes := by
      unfold liveNodes
      rw [size_modify]
      refine List.filter_congr fun j _ => ?_
      rw [live?_modify]
      split
      · rename_i hj
        subst hj
        cases hn : h.nodes[id]? with
        | none => rw [live?, hn, Option.map_none]
        | some n =>
          rw [live?, hn, Option.map_some, Option.filter_some, Option.filter_some, hlive n hn]
          split <;> rfl
      · rfl
    rw [hsame, size_modify]
    exact ht.counted
  · intro j x hx hdropped
    rw [node?_modify] at hx
    split at hx
    · rename_i hj
      subst hj
      obtain ⟨n, hn, rfl⟩ := Option.map_eq_some_iff.1 hx
      rw [hlive n hn] at hdropped
      exact hbare n hn hdropped (ht.bare hn hdropped)
    · exact ht.bare hx hdropped

theorem modify_live (ht : Tallied h) {f : Node → Node} (hn : h.live? id = some n)
    (hf : (f n).live = true) : Tallied (h.modify id f) := by
  obtain ⟨hnode, hl⟩ := live?_eq_some_iff.1 hn
  have heq : ∀ n', h.node? id = some n' → n' = n := fun n' hn' => Option.some.inj (hn'.symm.trans hnode)
  refine ht.modify ?_ ?_
  · intro n' hn'
    rw [heq n' hn', hf, hl]
  · intro n' hn' hdropped
    rw [heq n' hn', hl] at hdropped
    cases hdropped

theorem setBranch (ht : Tallied h) (id : NodeId) (name : String) (b : Branch) :
    Tallied (h.setBranch id name b) := by
  refine ht.modify (fun _ _ => rfl) fun n _ _ hnone => ?_
  rw [hnone]
  rfl

theorem reopen (ht : Tallied h) (parent : NodeId) (name : String) (descs : List DescId) :
    Tallied (h.reopen parent name descs) := by
  refine ht.modify (fun _ _ => rfl) fun n _ _ hnone => ?_
  rw [hnone]
  rfl

theorem add (ht : Tallied h) (hl : n.live = true) : Tallied (h.add n).2 := by
  have hsize : (h.add n).2.nodes.size = h.nodes.size + 1 := Array.size_push _
  have hnode : ∀ j, (h.add n).2.node? j = if j = h.nodes.size then some n else h.node? j :=
    fun j => Array.getElem?_push
  constructor
  · have hlive : (h.add n).2.liveNodes = h.liveNodes ++ [h.nodes.size] := by
      unfold liveNodes
      rw [hsize, List.range_succ, List.filter_append]
      congr 1
      · refine List.filter_congr fun j hj => ?_
        have hne : j ≠ h.nodes.size := Nat.ne_of_lt (List.mem_range.1 hj)
        have hold := hnode j
        rw [if_neg hne] at hold
        exact congrArg (fun x? : Option Node => (x?.filter (·.live)).isSome) hold
      · have hnew := hnode h.nodes.size
        rw [if_pos rfl] at hnew
        have hsome : ((h.add n).2.live? h.nodes.size).isSome = true := by
          rw [live?_eq_some_iff.2 ⟨hnew, hl⟩, Option.isSome_some]
        rw [List.filter_singleton, hsome]
        rfl
    have hdropped : (h.add n).2.dropped = h.dropped := rfl
    rw [hlive, List.length_append, List.length_singleton, hsize, hdropped, ← ht.counted]
    omega
  · intro j x hx hgone
    rw [hnode] at hx
    split at hx
    · cases hx
      rw [hl] at hgone
      cases hgone
    · exact ht.bare hx hgone

theorem drop (ht : Tallied h) (id : NodeId) : Tallied (h.drop id) := by
  constructor
  · rw [counted_drop, size_drop]
    exact ht.counted
  · intro j x hx hgone
    rw [node?_drop] at hx
    split at hx
    · obtain ⟨n, hn, rfl⟩ := Option.map_eq_some_iff.1 hx
      unfold Node.gone at hgone ⊢
      split
      · rfl
      · rename_i hl
        exact ht.bare hn (Bool.eq_false_iff.2 hl)
    · exact ht.bare hx hgone

theorem foldl_drop (ht : Tallied h) (ids : List NodeId) : Tallied (ids.foldl Hierarchy.drop h) := by
  induction ids generalizing h with
  | nil => exact ht
  | cons id rest ih => exact ih (ht.drop id)

theorem vacate (ht : Tallied h) (n : Node) : Tallied (h.vacate n) := by
  unfold Hierarchy.vacate
  cases n.parent? with
  | none => exact ht.withRoot? none
  | some parent => exact ht.reopen parent n.name n.descs

theorem detach (ht : Tallied h) (id : NodeId) : Tallied (h.detach id) := by
  cases hn : h.live? id with
  | none => rwa [detach_of_none hn]
  | some n =>
    rw [detach_of_some hn]
    exact (ht.vacate n).foldl_drop _

end Tallied

end

end Hierarchy
end UILayout
