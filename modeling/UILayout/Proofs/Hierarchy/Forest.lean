import Mathlib.Logic.Relation
import UILayout.Proofs.Hierarchy.Invalidate

/-!
# UILayout.Proofs.Hierarchy.Forest

The live nodes are a tree, and their number is known. Each of them is reached from the root over the
children that have been made, and all but the root are the child of one node, under their own name.
Dropping nodes drops all that is below them, each node once.

* `Coherent.mem_slots_iff`: the children that have been made are the live nodes that have a parent.
* `Coherent.forest`: the nodes of a coherent hierarchy.
* `Coherent.reaches_detach`: what is still reached after a node has been dropped.
* `Coherent.pruned_invalidate`: which nodes are left after a change.
-/

namespace UILayout
namespace Hierarchy

open Namespace Relation

/-- A child that has been made: the node below which it is kept, under which name, and its number. -/
structure Slot where
  parent : NodeId
  name : String
  child : NodeId
  deriving DecidableEq, Repr

/-- The children of a node that have been made, as they are kept. -/
def slotsOf (h : Hierarchy) (id : NodeId) : List Slot :=
  match (h.node? id).bind (·.children?) with
  | none => []
  | some m => m.entries.filterMap fun e =>
    match e.2 with
    | .built child => some ⟨id, e.1, child⟩
    | _ => none

/-- All children that have been made, also those that a dropped node would still have. -/
def slots (h : Hierarchy) : List Slot := (List.range h.nodes.size).flatMap h.slotsOf

/-- A child of one node has been made, and is the other one. -/
def Holds (h : Hierarchy) (p c : NodeId) : Prop := ∃ e ∈ h.slots, e.parent = p ∧ e.child = c

/-- A node is another one or has been made somewhere below it. -/
abbrev Reaches (h : Hierarchy) : NodeId → NodeId → Prop := ReflTransGen h.Holds

/-- The live nodes are a tree below the root and as many as the hierarchy says; each child that has been
made is kept in one place, which is the one that it names itself. -/
structure Forest (h : Hierarchy) : Prop where
  /-- What is subtracted from the number of nodes is no more than that. -/
  dropped : h.dropped ≤ h.nodes.size
  size : h.size = h.liveNodes.length
  root : ∀ {r : NodeId}, h.root? = some r → ∃ n, h.live? r = some n ∧ n.parent? = none
  reached : ∀ id ∈ h.liveNodes, ∃ r, h.root? = some r ∧ h.Reaches r id
  slot : ∀ e ∈ h.slots, e.parent ∈ h.liveNodes ∧
    ∃ n, h.live? e.child = some n ∧ n.name = e.name ∧ n.parent? = some e.parent
  once : (h.slots.map (·.child)).Nodup

/-- `h'` is `h` without some nodes and all that is below them, and counts each of these once. -/
structure Pruned (h : Hierarchy) (tops : List NodeId) (h' : Hierarchy) : Prop where
  live : ∀ id, id ∈ h'.liveNodes ↔ id ∈ h.liveNodes ∧ ∀ top ∈ tops, ¬ h.Reaches top id
  size : h'.nodes.size = h.nodes.size
  dropped : h'.dropped = h.dropped + (h.liveNodes.filter (· ∉ h'.liveNodes)).length

section

variable {ctx : Context} {h h' : Hierarchy} {id j p c : NodeId} {n x : Node}

/-! ## Children that have been made -/

theorem parent_of_mem_slotsOf {e : Slot} (he : e ∈ h.slotsOf id) : e.parent = id := by
  unfold slotsOf at he
  split at he
  · cases he
  · obtain ⟨entry, -, hentry⟩ := List.mem_filterMap.1 he
    split at hentry
    · cases hentry
      rfl
    · cases hentry

theorem mem_slotsOf {e : Slot} (he : e ∈ h.slotsOf id) : ∃ n m, h.node? id = some n ∧
    n.children? = some m ∧ (e.name, Branch.built e.child) ∈ m.entries := by
  unfold slotsOf at he
  split at he
  · cases he
  · rename_i m hm
    obtain ⟨n, hn, hm⟩ := Option.bind_eq_some_iff.1 hm
    obtain ⟨⟨name, b⟩, hmem, hentry⟩ := List.mem_filterMap.1 he
    refine ⟨n, m, hn, hm, ?_⟩
    cases b with
    | built child =>
      cases hentry
      exact hmem
    | pending _ => cases hentry
    | missing => cases hentry

theorem mem_slotsOf_of_built (hn : h.node? id = some n) {name : String} (hb : n.Built name c) :
    ⟨id, name, c⟩ ∈ h.slotsOf id := by
  obtain ⟨m, hm, hget⟩ := hb
  unfold slotsOf
  rw [hn, Option.bind_some, hm]
  exact List.mem_filterMap.2 ⟨_, OrderedMap.mem_of_get? hget, rfl⟩

theorem mem_slots_iff {e : Slot} : e ∈ h.slots ↔ e ∈ h.slotsOf e.parent := by
  unfold slots
  rw [List.mem_flatMap]
  constructor
  · rintro ⟨id, -, he⟩
    rwa [parent_of_mem_slotsOf he]
  · intro he
    obtain ⟨n, -, hn, -⟩ := mem_slotsOf he
    exact ⟨e.parent, List.mem_range.2 (Array.getElem?_eq_some_iff.1 hn).1, he⟩

/-! ## Sizes -/

theorem length_filter_mem {ids ids' : List NodeId} (hids : ids.Nodup) (hids' : ids'.Nodup)
    (hsub : ids' ⊆ ids) : ids'.length + (ids.filter (· ∉ ids')).length = ids.length := by
  have hperm : List.Perm ids' (ids.filter (· ∈ ids')) := by
    refine (List.perm_ext_iff_of_nodup hids' (hids.filter _)).2 fun id => ?_
    simpa using fun hmem => hsub hmem
  rw [hperm.length_eq, List.length_eq_length_filter_add (· ∈ ids') (l := ids)]
  simp

theorem size_foldl_drop (ids : List NodeId) (h : Hierarchy) :
    (ids.foldl drop h).nodes.size = h.nodes.size := by
  induction ids generalizing h with
  | nil => rfl
  | cons id rest ih => rw [List.foldl_cons, ih, size_drop]

theorem size_vacate (h : Hierarchy) (n : Node) : (h.vacate n).nodes.size = h.nodes.size := by
  unfold vacate
  cases n.parent? with
  | none => rfl
  | some p => exact size_modify h p _

theorem size_detach (h : Hierarchy) (id : NodeId) : (h.detach id).nodes.size = h.nodes.size := by
  cases hn : h.live? id with
  | none => rw [detach_of_none hn]
  | some n => rw [detach_of_some hn, size_foldl_drop, size_vacate]

theorem size_detachAll (ids : List NodeId) (h : Hierarchy) :
    (ids.foldl detach h).nodes.size = h.nodes.size := by
  induction ids generalizing h with
  | nil => rfl
  | cons id rest ih => rw [List.foldl_cons, ih, size_detach]

/-- Nothing is dropped when nothing has changed. -/
theorem staleNodes_eq_nil {changes : Changes} (hnone : (changes.isEmpty || h.nodes.isEmpty) = true) :
    h.staleNodes changes = [] := by
  unfold staleNodes
  rcases Bool.or_eq_true_iff.1 hnone with hempty | hempty
  · simp [touches_of_isEmpty hempty]
  · simp [Array.isEmpty_iff.1 hempty]

namespace Coherent

theorem live?_of_children? (hc : Coherent ctx h) (hn : h.node? id = some n) {m : NameMap Branch}
    (hm : n.children? = some m) : h.live? id = some n := by
  refine live?_eq_some_iff.2 ⟨hn, ?_⟩
  by_contra hl
  rw [hc.tallied.bare hn (Bool.eq_false_iff.2 hl)] at hm
  cases hm

/-- The children that have been made are the live nodes that have a parent. -/
theorem mem_slots_iff (hc : Coherent ctx h) {e : Slot} :
    e ∈ h.slots ↔ ∃ n, h.live? e.child = some n ∧ n.name = e.name ∧ n.parent? = some e.parent := by
  rw [Hierarchy.mem_slots_iff]
  constructor
  · intro he
    obtain ⟨pn, m, hpn, hm, hmem⟩ := mem_slotsOf he
    have hlive := hc.live?_of_children? hpn hm
    have hget := OrderedMap.get?_of_mem (hc.nodup_keys hlive hm) hmem
    obtain ⟨n, hn, hp, hname⟩ := hc.of_built hlive ⟨m, hm, hget⟩
    exact ⟨n, hn, hname, hp⟩
  · rintro ⟨n, hn, hname, hp⟩
    obtain ⟨-, pn, hpn, hb⟩ := (hc.hung hn).parent hp
    rw [hname] at hb
    exact mem_slotsOf_of_built (node?_of_live? hpn) hb

theorem holds_iff (hc : Coherent ctx h) :
    h.Holds p c ↔ ∃ n, h.live? c = some n ∧ n.parent? = some p := by
  constructor
  · rintro ⟨e, he, rfl, rfl⟩
    obtain ⟨n, hn, -, hp⟩ := hc.mem_slots_iff.1 he
    exact ⟨n, hn, hp⟩
  · rintro ⟨n, hn, hp⟩
    exact ⟨⟨p, n.name, c⟩, hc.mem_slots_iff.2 ⟨n, hn, rfl, hp⟩, rfl, rfl⟩

theorem nodup_slotsOf (hc : Coherent ctx h) (id : NodeId) : (h.slotsOf id).Nodup := by
  unfold slotsOf
  split
  · exact List.nodup_nil
  · rename_i m hm
    obtain ⟨n, hn, hm⟩ := Option.bind_eq_some_iff.1 hm
    have hkeys := hc.nodup_keys (hc.live?_of_children? hn hm) hm
    refine List.Nodup.filterMap ?_ (List.Nodup.of_map Prod.fst hkeys)
    rintro ⟨name, b⟩ ⟨name', b'⟩ e he he'
    cases b <;> cases b' <;> cases he <;> cases he'
    rfl

theorem nodup_slots (hc : Coherent ctx h) : h.slots.Nodup := by
  unfold slots
  refine List.nodup_flatMap.2 ⟨fun id _ => hc.nodup_slotsOf id, List.nodup_range.imp ?_⟩
  intro a b hne e ha hb
  exact hne ((parent_of_mem_slotsOf ha).symm.trans (parent_of_mem_slotsOf hb))

/-- Where a node is kept, and under which name, can be read from it. -/
theorem nodup_children (hc : Coherent ctx h) : (h.slots.map (·.child)).Nodup := by
  refine hc.nodup_slots.map_on fun e he e' he' heq => ?_
  obtain ⟨n, hn, hname, hp⟩ := hc.mem_slots_iff.1 he
  obtain ⟨n', hn', hname', hp'⟩ := hc.mem_slots_iff.1 he'
  rw [heq, hn'] at hn
  cases hn
  obtain ⟨parent, name, child⟩ := e
  obtain ⟨parent', name', child'⟩ := e'
  rw [Slot.mk.injEq]
  exact ⟨Option.some.inj (hp.symm.trans hp'), hname.symm.trans hname', heq⟩

/-! ## The tree -/

/-- A live node is reached from the root, as its parent is. -/
theorem reached (hc : Coherent ctx h) (hn : h.live? id = some n) :
    ∃ r, h.root? = some r ∧ h.Reaches r id := by
  induction id using Nat.strongRecOn generalizing n with
  | ind id ih =>
    cases hp : n.parent? with
    | none => exact ⟨id, ((hc.hung hn).root hp).1, .refl⟩
    | some p =>
      obtain ⟨hlt, pn, hpn, -⟩ := (hc.hung hn).parent hp
      obtain ⟨r, hr, hreaches⟩ := ih p hlt hpn
      exact ⟨r, hr, hreaches.tail (hc.holds_iff.2 ⟨n, hn, hp⟩)⟩

theorem forest (hc : Coherent ctx h) : Forest h := by
  have hcounted := hc.tallied.counted
  refine ⟨by omega, ?_, hc.root, ?_, ?_, hc.nodup_children⟩
  · unfold Hierarchy.size
    omega
  · intro id hid
    obtain ⟨n, hn⟩ := mem_liveNodes_iff.1 hid
    exact hc.reached hn
  · intro e he
    obtain ⟨n, hn, hname, hp⟩ := hc.mem_slots_iff.1 he
    obtain ⟨-, pn, hpn, -⟩ := (hc.hung hn).parent hp
    exact ⟨mem_liveNodes_iff.2 ⟨pn, hpn⟩, n, hn, hname, hp⟩

/-! ## What is left when nodes are dropped -/

/-- The subtree of a live node is what it reaches. -/
theorem reaches_iff (hc : Coherent ctx h) (hn : h.live? id = some n) :
    h.Reaches id j ↔ j ∈ h.subtree id := by
  constructor
  · intro hreaches
    induction hreaches with
    | refl => exact self_mem_subtree h id
    | tail _ hholds ih =>
      obtain ⟨x, hx, hp⟩ := hc.holds_iff.1 hholds
      exact hc.child_mem_subtree hx hp ih
  · intro hj
    induction j using Nat.strongRecOn with
    | ind j ih =>
      rcases hc.of_mem_subtree hn hj with rfl | ⟨x, p, hx, hp, hmem⟩
      · exact .refl
      · exact (ih p ((hc.hung hx).parent hp).1 hmem).tail (hc.holds_iff.2 ⟨x, hx, hp⟩)

theorem holds_detach (hc : Coherent ctx h) (hn : h.live? id = some n) :
    (h.detach id).Holds p c ↔ h.Holds p c ∧ ¬ h.Reaches id c := by
  have hd := detached hn
  rw [(hc.detach id).1.holds_iff, hc.holds_iff, hc.reaches_iff hn]
  constructor
  · rintro ⟨x, hx, hp⟩
    obtain ⟨hc', x₀, hx₀, rfl⟩ := hd.was hx
    rw [Node.parent?_without] at hp
    exact ⟨⟨x₀, hx₀, hp⟩, hc'⟩
  · rintro ⟨⟨x, hx, hp⟩, hc'⟩
    exact ⟨_, hd.keeps hc' hx, (x.parent?_without c n).trans hp⟩

/-- Only live nodes reach live nodes. -/
theorem live_of_reaches (hc : Coherent ctx h) (hreaches : h.Reaches id j) (hj : j ∈ h.liveNodes) :
    id ∈ h.liveNodes := by
  rcases hreaches.cases_head with rfl | ⟨c, hholds, -⟩
  · exact hj
  · obtain ⟨x, hx, hp⟩ := hc.holds_iff.1 hholds
    obtain ⟨-, pn, hpn, -⟩ := (hc.hung hx).parent hp
    exact mem_liveNodes_iff.2 ⟨pn, hpn⟩

/-- What a dropped node does not reach is reached as before. -/
theorem reaches_detach (hc : Coherent ctx h) (hj : ¬ h.Reaches id j) (top : NodeId) :
    (h.detach id).Reaches top j ↔ h.Reaches top j := by
  cases hn : h.live? id with
  | none => rw [detach_of_none hn]
  | some n =>
    constructor
    · intro hreaches
      exact ReflTransGen.mono (fun _ _ hholds => ((hc.holds_detach hn).1 hholds).1) _ _ hreaches
    · intro hreaches
      induction hreaches using ReflTransGen.head_induction_on with
      | refl => exact .refl
      | head hholds hrest ih =>
        exact .head ((hc.holds_detach hn).2 ⟨hholds, fun hb => hj (hb.trans hrest)⟩) ih

theorem mem_liveNodes_detach (hc : Coherent ctx h) :
    j ∈ (h.detach id).liveNodes ↔ j ∈ h.liveNodes ∧ ¬ h.Reaches id j := by
  cases hn : h.live? id with
  | none =>
    rw [detach_of_none hn]
    refine ⟨fun hj => ⟨hj, fun hreaches => ?_⟩, And.left⟩
    obtain ⟨n, hn'⟩ := mem_liveNodes_iff.1 (hc.live_of_reaches hreaches hj)
    rw [hn] at hn'
    cases hn'
  | some n =>
    rw [mem_liveNodes_iff, mem_liveNodes_iff, hc.reaches_iff hn, (detached hn).live?]
    split
    · simp [*]
    · simp [*]

/-- Nodes are dropped one after the other, and each takes with it what the earlier ones have left of
what it reached at first. -/
theorem mem_liveNodes_detachAll (hc : Coherent ctx h) (ids : List NodeId) :
    j ∈ (ids.foldl Hierarchy.detach h).liveNodes ↔
      j ∈ h.liveNodes ∧ ∀ top ∈ ids, ¬ h.Reaches top j := by
  induction ids generalizing h with
  | nil => simp
  | cons id rest ih =>
    rw [List.foldl_cons, ih (hc.detach id).1, hc.mem_liveNodes_detach, List.forall_mem_cons, and_assoc]
    refine and_congr_right fun _ => and_congr_right fun hj => ?_
    simp only [hc.reaches_detach hj]

theorem pruned_detachAll (hc : Coherent ctx h) (ids : List NodeId) :
    Pruned h ids (ids.foldl Hierarchy.detach h) := by
  have hlive : ∀ j, j ∈ (ids.foldl Hierarchy.detach h).liveNodes ↔
      j ∈ h.liveNodes ∧ ∀ top ∈ ids, ¬ h.Reaches top j := fun j => hc.mem_liveNodes_detachAll ids
  have hsize := size_detachAll ids h
  refine ⟨hlive, hsize, ?_⟩
  have hcounted := hc.tallied.counted
  have hcounted' := (hc.detachAll ids).1.tallied.counted
  have hleft := length_filter_mem (nodup_liveNodes h)
    (nodup_liveNodes (ids.foldl Hierarchy.detach h)) fun j hj => ((hlive j).1 hj).1
  omega

/-- A change drops the nodes that were made from what has changed and all below them, each once. When
most nodes are dropped ones then, the others go too. -/
theorem pruned_invalidate (hc : Coherent ctx h) (changes : Changes) :
    ∃ h', Pruned h (h.staleNodes changes) h' ∧
      (h.invalidate changes = h' ∨
        h.invalidate changes = .empty ∧ sweepLimit < h'.dropped ∧ h'.nodes.size < h'.dropped * 2) := by
  refine ⟨(h.staleNodes changes).foldl Hierarchy.detach h, hc.pruned_detachAll _, ?_⟩
  unfold Hierarchy.invalidate
  split
  · rename_i hnone
    rw [staleNodes_eq_nil hnone]
    exact .inl rfl
  · dsimp only
    split
    · rename_i hmany
      exact .inr ⟨rfl, hmany⟩
    · exact .inl rfl

end Coherent

end

end Hierarchy
end UILayout
