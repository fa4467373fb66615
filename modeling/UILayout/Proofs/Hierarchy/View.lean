import UILayout.Hierarchy.Build
import UILayout.Proofs.OrderedMap

/-!
# UILayout.Proofs.Hierarchy.View

What a node is, apart from the numbers of nodes. A `View` depends on nothing but the namespace, the
documents and the descs that are merged, so nodes that are made at different times can be compared.

* `makeNode_eq`: making a node is working out its view.
* `sources_subset_read`: what a node is made from has been read.
* `nodup_keys_groupChildren`: every name is listed once.
-/

namespace UILayout
namespace Hierarchy

open Namespace Schema Markup

structure View where
  name : String
  main : DescId
  descs : List DescId
  detail : Detail
  sources : List DescId

def Node.view (n : Node) : View := ⟨n.name, n.main, n.descs, n.detail, n.sources⟩

/-- What some descs of one name make, if they make anything. -/
def viewOf? (ctx : Context) (name : String) (descs : List DescId) : Option View :=
  match descs with
  | [] => none
  | main :: _ =>
    if (Reach.ofDescs ctx descs).broken then none
    else
      some ⟨name, main, descs, detailOf ctx main (Reach.ofDescs ctx descs).sources,
        (Reach.ofDescs ctx descs).sources⟩

/-- What is read to find out what some descs make. -/
def readOf (ctx : Context) (descs : List DescId) : List DescId := (Reach.ofDescs ctx descs).read

namespace View

def root : View := Node.root.view

/-- A node of a view whose children nobody has asked for. -/
def node (v : View) (parent : NodeId) (read : List DescId) : Node :=
  ⟨v.name, v.main, v.descs, some parent, v.detail, v.sources, read, none, true⟩

/-- The names of the children, with the descs that are merged into each. -/
def slots (ctx : Context) (v : View) : NameMap (List DescId) := groupChildren ctx.names v.sources

/-- The child of a name. -/
def child? (ctx : Context) (v : View) (name : String) : Option View :=
  ((v.slots ctx).get? name).bind (viewOf? ctx name)

end View

theorem makeNode_eq (ctx : Context) (name : String) (descs : List DescId) (parent : NodeId) :
    makeNode ctx name descs parent =
      match viewOf? ctx name descs with
      | none => .error (readOf ctx descs)
      | some v => .ok (v.node parent (readOf ctx descs)) := by
  unfold makeNode viewOf?
  cases descs with
  | nil => rfl
  | cons main rest =>
    simp only
    split <;> rfl

theorem name_of_viewOf? {ctx : Context} {name : String} {descs : List DescId} {v : View}
    (h : viewOf? ctx name descs = some v) : v.name = name ∧ v.descs = descs ∧
      v.sources = (Reach.ofDescs ctx descs).sources := by
  unfold viewOf? at h
  cases descs with
  | nil => cases h
  | cons main rest =>
    simp only at h
    split at h
    · cases h
    · cases h
      exact ⟨rfl, rfl, rfl⟩

theorem detail_of_viewOf? {ctx : Context} {name : String} {descs : List DescId} {v : View}
    (h : viewOf? ctx name descs = some v) : v.detail = detailOf ctx v.main v.sources := by
  unfold viewOf? at h
  split at h
  · cases h
  · split at h
    · cases h
    · cases h
      rfl

/-! ## What the search for links comes to, one desc at a time -/

namespace Reach

variable {ctx : Context} {seen : List DescId} {id : DescId} {own : Bool} {rest : List (DescId × Bool)}

theorem fromQueue_nil (ctx : Context) (seen : List DescId) : fromQueue ctx seen [] = .none := by
  rw [fromQueue]

theorem fromQueue_seen (hs : id ∈ seen) :
    fromQueue ctx seen ((id, own) :: rest) = fromQueue ctx seen rest := by
  rw [fromQueue]
  simp [hs]

theorem fromQueue_gone (hs : id ∉ seen) (hd : ctx.names.live? id = Option.none) :
    fromQueue ctx seen ((id, own) :: rest) =
      { fromQueue ctx seen rest with read := id :: (fromQueue ctx seen rest).read } := by
  rw [fromQueue]
  simp only [hs, dif_neg, not_false_eq_true]
  split
  · rfl
  · rename_i d hd'
    rw [hd] at hd'
    cases hd'

theorem fromQueue_live (hs : id ∉ seen) {d : Desc} (hd : ctx.names.live? id = some d) :
    fromQueue ctx seen ((id, own) :: rest) = .cons id own (descLinks ctx d)
      (fromQueue ctx (id :: seen) (rest ++ (descLinks ctx d).targets.map (·, false))) := by
  rw [fromQueue]
  simp only [hs, dif_neg, not_false_eq_true]
  split
  · rename_i hd'
    rw [hd] at hd'
    cases hd'
  · rename_i d' hd'
    rw [hd] at hd'
    cases hd'
    rfl

theorem sources_subset_read_fromQueue (ctx : Context) (seen : List DescId)
    (queue : List (DescId × Bool)) :
    (fromQueue ctx seen queue).sources ⊆ (fromQueue ctx seen queue).read := by
  induction seen, queue using fromQueue.induct ctx with
  | case1 seen =>
    rw [fromQueue_nil]
    exact List.Subset.refl _
  | case2 seen id own rest hs ih =>
    rw [fromQueue_seen hs]
    exact ih
  | case3 seen id own rest hs hd ih =>
    rw [fromQueue_gone hs hd]
    exact List.subset_cons_of_subset _ ih
  | case4 seen id own rest hs d hd links =>
    rename_i ih
    rw [fromQueue_live hs hd]
    exact List.cons_subset_cons _ (List.subset_append_of_subset_right _ ih)

end Reach

theorem sources_subset_read {ctx : Context} {name : String} {descs : List DescId} {v : View}
    (h : viewOf? ctx name descs = some v) : v.sources ⊆ readOf ctx descs := by
  rw [(name_of_viewOf? h).2.2]
  exact Reach.sources_subset_read_fromQueue ctx [] _

theorem nodup_keys_groupChildren (n : Namespace) (sources : List DescId) :
    (groupChildren n sources).keys.Nodup := by
  unfold groupChildren
  generalize (sources.filterMap n.live?).flatMap (·.children.entries) = entries
  have run : ∀ (entries : List (String × DescId)) (m : NameMap (List DescId)), m.keys.Nodup →
      (entries.foldl (fun m e => m.alter e.1 fun ids? =>
        let ids := ids?.getD []
        if ids.contains e.2 then ids else ids ++ [e.2]) m).keys.Nodup := by
    intro entries
    induction entries with
    | nil => exact fun m hm => hm
    | cons e rest ih => exact fun m hm => ih _ (OrderedMap.nodup_keys_alter hm _ _)
  exact run entries .empty (by simp)

end Hierarchy
end UILayout
