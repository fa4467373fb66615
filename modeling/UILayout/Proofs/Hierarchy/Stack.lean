import UILayout.Proofs.Hierarchy.Forest

/-!
# UILayout.Proofs.Hierarchy.Stack

Dropping nodes with a stack drops what is reached from those on it. It does not matter in which order
nodes are dropped, nor whether one is asked to be dropped twice; so the stack and the list of a subtree
come to the same.

* `dropStack_eq`: which nodes are dropped with a stack.
* `Coherent.uproot_eq`, `Coherent.discard_eq`: both ways agree on a coherent hierarchy.
-/

namespace UILayout
namespace Hierarchy

open Namespace Relation

/-- A live node has had a child made. -/
def Edge (h : Hierarchy) (p c : NodeId) : Prop := ∃ n, h.live? p = some n ∧ c ∈ n.builtChildren

section

variable {ctx : Context} {h : Hierarchy} {id j p c : NodeId} {n x : Node}

/-! ## Which nodes are dropped with a stack -/

theorem not_edge_of_none (hn : h.live? p = none) : ¬ h.Edge p c := by
  rintro ⟨n, hn', -⟩
  rw [hn] at hn'
  cases hn'

/-- Nothing is below a node that is not live. -/
theorem eq_of_none (hn : h.live? p = none) (hpath : ReflTransGen h.Edge p j) : p = j := by
  rcases hpath.cases_head with heq | ⟨c, hedge, -⟩
  · exact heq
  · exact absurd hedge (not_edge_of_none hn)

theorem edge_drop_iff : (h.drop id).Edge p c ↔ p ≠ id ∧ h.Edge p c := by
  unfold Edge
  rw [live?_drop]
  split
  · simp [*]
  · simp [*]

theorem reaches_of_drop (hpath : ReflTransGen (h.drop id).Edge p j) : ReflTransGen h.Edge p j :=
  ReflTransGen.mono (fun _ _ hedge => (edge_drop_iff.1 hedge).2) _ _ hpath

/-- A way down that passes a node still goes on from one of its children when it is dropped. -/
theorem reaches_drop (hn : h.live? id = some n) (hpath : ReflTransGen h.Edge p j) :
    ReflTransGen (h.drop id).Edge p j ∨
      ∃ c ∈ n.builtChildren, ReflTransGen (h.drop id).Edge c j := by
  induction hpath using ReflTransGen.head_induction_on with
  | refl => exact .inl .refl
  | @head a b hedge _ ih =>
    rcases ih with hrest | hchild
    · by_cases ha : a = id
      · subst ha
        obtain ⟨n', hn', hb⟩ := hedge
        rw [hn] at hn'
        cases hn'
        exact .inr ⟨b, hb, hrest⟩
      · exact .inl (.head (edge_drop_iff.2 ⟨ha, hedge⟩) hrest)
    · exact .inr hchild

/-- What else is reached from the stack when a live node on top of it has been dropped. -/
theorem reached_drop_iff (hn : h.live? id = some n) (hj : j ≠ id) (rest : List NodeId) :
    (∃ s ∈ n.builtChildren.reverse ++ rest, ReflTransGen (h.drop id).Edge s j) ↔
      ∃ s ∈ id :: rest, ReflTransGen h.Edge s j := by
  constructor
  · rintro ⟨s, hs, hpath⟩
    rcases List.mem_append.1 hs with hs | hs
    · have hedge : h.Edge id s := ⟨n, hn, List.mem_reverse.1 hs⟩
      exact ⟨id, List.mem_cons_self, .head hedge (reaches_of_drop hpath)⟩
    · exact ⟨s, List.mem_cons_of_mem _ hs, reaches_of_drop hpath⟩
  · rintro ⟨s, hs, hpath⟩
    rcases reaches_drop hn hpath with hpath | ⟨c, hc, hpath⟩
    · rcases List.mem_cons.1 hs with rfl | hs
      · have hnone : (h.drop s).live? s = none := by rw [live?_drop, if_pos rfl]
        exact absurd (eq_of_none hnone hpath).symm hj
      · exact ⟨s, List.mem_append_right _ hs, hpath⟩
    · exact ⟨c, List.mem_append_left _ (List.mem_reverse.2 hc), hpath⟩

theorem dropStack_eq (h : Hierarchy) (stack : List NodeId) :
    ∃ ids : List NodeId, h.dropStack stack = ids.foldl drop h ∧
      ∀ j ∈ h.liveNodes, j ∈ ids ↔ ∃ s ∈ stack, ReflTransGen h.Edge s j := by
  fun_induction dropStack h stack with
  | case1 h => exact ⟨[], rfl, by simp⟩
  | case2 h id rest hn ih =>
    obtain ⟨ids, heq, hids⟩ := ih
    refine ⟨ids, heq, fun j hj => (hids j hj).trans ?_⟩
    rw [List.exists_mem_cons_iff]
    refine ⟨.inr, ?_⟩
    rintro (hpath | hrest)
    · -- the node on top is not live, and reaches only itself
      obtain ⟨x, hx⟩ := mem_liveNodes_iff.1 hj
      rw [← eq_of_none hn hpath, hn] at hx
      cases hx
    · exact hrest
  | case3 h id rest n hn ih =>
    obtain ⟨ids, heq, hids⟩ := ih
    refine ⟨id :: ids, heq, fun j hj => ?_⟩
    by_cases hji : j = id
    · subst hji
      exact iff_of_true List.mem_cons_self ⟨j, List.mem_cons_self, .refl⟩
    · have hj' : j ∈ (h.drop id).liveNodes := by
        rw [liveNodes_drop]
        exact (List.mem_erase_of_ne hji).2 hj
      rw [List.mem_cons, or_iff_right hji, hids j hj', reached_drop_iff hn hji]

/-! ## The order in which nodes are dropped -/

theorem node?_foldl_drop (ids : List NodeId) (h : Hierarchy) (j : NodeId) :
    (ids.foldl drop h).node? j = if j ∈ ids then (h.node? j).map Node.gone else h.node? j := by
  induction ids generalizing h with
  | nil => rfl
  | cons id rest ih =>
    rw [List.foldl_cons, ih, node?_drop]
    by_cases hj : j = id <;> by_cases hr : j ∈ rest <;>
      simp [hj, hr, Function.comp_def, Node.gone_gone]

theorem counted_foldl_drop (ids : List NodeId) (h : Hierarchy) :
    (ids.foldl drop h).liveNodes.length + (ids.foldl drop h).dropped =
      h.liveNodes.length + h.dropped := by
  induction ids generalizing h with
  | nil => rfl
  | cons id rest ih => rw [List.foldl_cons, ih, counted_drop]

/-- Only which live nodes are dropped makes a difference. -/
theorem foldl_drop_congr {ids ids' : List NodeId} (hids : ∀ j ∈ h.liveNodes, j ∈ ids ↔ j ∈ ids') :
    ids.foldl drop h = ids'.foldl drop h := by
  have hnode : ∀ j, (ids.foldl drop h).node? j = (ids'.foldl drop h).node? j := by
    intro j
    rw [node?_foldl_drop, node?_foldl_drop]
    cases hn : h.node? j with
    | none => simp
    | some n =>
      by_cases hl : n.live = true
      · have hlive : h.live? j = some n := live?_eq_some_iff.2 ⟨hn, hl⟩
        simp only [hids j (mem_liveNodes_iff.2 ⟨n, hlive⟩)]
      · rw [Option.map_some, Node.gone, if_neg hl, ite_self, ite_self]
  have hnodes : (ids.foldl drop h).nodes = (ids'.foldl drop h).nodes := Array.ext_getElem? hnode
  have hlive : (ids.foldl drop h).liveNodes = (ids'.foldl drop h).liveNodes := by
    unfold liveNodes live?
    rw [hnodes]
  have hroot : (ids.foldl drop h).root? = (ids'.foldl drop h).root? := by
    rw [root?_foldl_drop, root?_foldl_drop]
  have hdropped : (ids.foldl drop h).dropped = (ids'.foldl drop h).dropped := by
    have hcounted := counted_foldl_drop ids h
    have hcounted' := counted_foldl_drop ids' h
    rw [hlive] at hcounted
    omega
  cases hd : ids.foldl drop h
  cases hd' : ids'.foldl drop h
  rw [hd, hd'] at hnodes hroot hdropped
  rw [Hierarchy.mk.injEq]
  exact ⟨hnodes, hroot, hdropped⟩

/-! ## A node that is no longer in its place -/

namespace Coherent

theorem edge_iff (hc : Coherent ctx h) : h.Edge p c ↔ h.Holds p c := by
  rw [hc.holds_iff]
  constructor
  · rintro ⟨pn, hpn, hmem⟩
    exact (hc.mem_builtChildren_iff hpn).1 hmem
  · rintro ⟨cn, hcn, hp⟩
    obtain ⟨-, pn, hpn, -⟩ := (hc.hung hcn).parent hp
    exact ⟨pn, hpn, (hc.mem_builtChildren_iff hpn).2 ⟨cn, hcn, hp⟩⟩

theorem edge_of_vacate (hc : Coherent ctx h) (hedge : (h.vacate n).Edge p c) : h.Edge p c := by
  obtain ⟨x', hx', hmem⟩ := hedge
  rw [live?_vacate] at hx'
  obtain ⟨x, hx, rfl⟩ := Option.map_eq_some_iff.1 hx'
  refine ⟨x, hx, ?_⟩
  unfold Node.without at hmem
  split at hmem
  · cases hm' : (x.reopened n.name n.descs).children? with
    | none => simp [Node.builtChildren, hm'] at hmem
    | some m' =>
      obtain ⟨m, hm, hkeys, hkept⟩ := exists_of_reopened hm'
      have hnodup : m'.keys.Nodup := hkeys ▸ hc.nodup_keys hx hm
      obtain ⟨name, m₁, hm₁, hget⟩ := (mem_builtChildren hm' hnodup).1 hmem
      rw [hm'] at hm₁
      cases hm₁
      rcases hkept hget with ⟨hget, -⟩ | ⟨-, -, hpending⟩
      · obtain ⟨cn, hcn, hp, -⟩ := hc.of_built hx ⟨m, hm, hget⟩
        exact (hc.mem_builtChildren_iff hx).2 ⟨cn, hcn, hp⟩
      · cases hpending
  · exact hmem

/-- The way down from a node does not pass its parent, which is an earlier node. -/
theorem reaches_vacate_iff (hc : Coherent ctx h) (hn : h.live? id = some n) :
    ReflTransGen (h.vacate n).Edge id j ↔ h.Reaches id j := by
  constructor
  · intro hpath
    exact ReflTransGen.mono (fun _ _ hedge => hc.edge_iff.1 (hc.edge_of_vacate hedge)) _ _ hpath
  · intro hreaches
    have hpath : ReflTransGen (h.vacate n).Edge id j ∧ id ≤ j := by
      induction hreaches with
      | refl => exact ⟨.refl, Nat.le_refl id⟩
      | @tail p c _ hholds ih =>
        obtain ⟨hpath, hle⟩ := ih
        obtain ⟨x, hx, hmem⟩ := hc.edge_iff.2 hholds
        have hkept : x.without p n = x := by
          unfold Node.without
          rw [if_neg]
          intro hp
          exact absurd ((hc.hung hn).parent hp).1 (Nat.not_lt.2 hle)
        obtain ⟨cn, hcn, hp⟩ := hc.holds_iff.1 hholds
        have hlt : p < c := ((hc.hung hcn).parent hp).1
        refine ⟨hpath.tail ⟨x, ?_, hmem⟩, Nat.le_trans hle (Nat.le_of_lt hlt)⟩
        rw [live?_vacate, hx, Option.map_some, hkept]
    exact hpath.1

/-! ## Both ways of dropping agree -/

theorem uproot_eq (hc : Coherent ctx h) (id : NodeId) : h.uproot id = h.detach id := by
  unfold Hierarchy.uproot
  cases hn : h.live? id with
  | none => exact (detach_of_none hn).symm
  | some n =>
    obtain ⟨ids, heq, hids⟩ := dropStack_eq (h.vacate n) [id]
    dsimp only
    rw [heq, detach_of_some hn]
    refine foldl_drop_congr fun j hj => (hids j hj).trans ?_
    simp only [List.mem_singleton, exists_eq_left]
    rw [hc.reaches_vacate_iff hn, hc.reaches_iff hn]

theorem uprootAll_eq (hc : Coherent ctx h) (ids : List NodeId) :
    ids.foldl Hierarchy.uproot h = ids.foldl Hierarchy.detach h := by
  induction ids generalizing h with
  | nil => rfl
  | cons id rest ih => rw [List.foldl_cons, List.foldl_cons, hc.uproot_eq, ih (hc.detach id).1]

theorem discard_eq (hc : Coherent ctx h) (changes : Changes) :
    h.discard changes = h.invalidate changes := by
  unfold Hierarchy.discard Hierarchy.invalidate
  rw [hc.uprootAll_eq]

end Coherent

end

end Hierarchy
end UILayout
