import UILayout.Proofs.Hierarchy.Coherent
import UILayout.Proofs.Namespace.Tree

/-!
# UILayout.Proofs.Hierarchy.Agree

What a node is depends on no more than what it has noted as read. Two contexts that differ only in
descs that a change touches, and in the documents that declare these, make the same nodes from all
that the change leaves alone.

* `Agree.fromQueue`: links that are followed through untouched descs lead to the same.
* `Coherent.transfer`: a hierarchy that was made from untouched descs is coherent after the change.
-/

namespace UILayout
namespace Hierarchy

open Namespace Schema Markup

/-- A change leaves all of some descs alone. -/
def Spared (changes : Changes) (ids : List DescId) : Prop := ∀ id ∈ ids, changes.touches id = false

/-- `ctx'` is `ctx` after a change: a desc that is not touched is what it was, and so are the documents
that declare it. -/
structure Agree (ctx ctx' : Context) (changes : Changes) : Prop where
  schema : ctx'.schema = ctx.schema
  desc : ∀ {id : DescId}, changes.touches id = false → ctx'.names.descs[id]? = ctx.names.descs[id]?
  document : ∀ {id : DescId} {d : Desc} {site : Site}, changes.touches id = false →
    ctx.names.descs[id]? = some d → site ∈ d.sites →
    ctx'.document? site.element.document = ctx.document? site.element.document

section

variable {ctx ctx' : Context} {changes : Changes} {id : DescId} {ids ids' : List DescId} {d : Desc}

namespace Spared

theorem mono (h : Spared changes ids') (hsub : ids ⊆ ids') : Spared changes ids :=
  fun id hid => h id (hsub hid)

theorem left (h : Spared changes (ids ++ ids')) : Spared changes ids :=
  h.mono (List.subset_append_left _ _)

theorem right (h : Spared changes (ids ++ ids')) : Spared changes ids' :=
  h.mono (List.subset_append_right _ _)

theorem head (h : Spared changes (id :: ids)) : changes.touches id = false :=
  h id List.mem_cons_self

theorem tail (h : Spared changes (id :: ids)) : Spared changes ids :=
  h.mono (List.subset_cons_self _ _)

end Spared

theorem target_mem_trail {n : Namespace} {names : List String} {target : DescId}
    (h : n.follow? id names = some target) : target ∈ trail n id names := by
  induction names generalizing id with
  | nil =>
    cases h
    exact List.mem_singleton.2 rfl
  | cons name rest ih =>
    rw [follow?] at h
    obtain ⟨child, hchild, hrest⟩ := Option.bind_eq_some_iff.1 h
    simp only [trail, hchild]
    exact List.mem_cons_of_mem _ (ih hrest)

namespace Agree

variable (ha : Agree ctx ctx' changes)
include ha

/-! ## Descs and links -/

theorem live? (ht : changes.touches id = false) : ctx'.names.live? id = ctx.names.live? id := by
  unfold Namespace.live?
  rw [ha.desc ht]

theorem kind? (ht : changes.touches id = false) : ctx'.names.kind? id = ctx.names.kind? id := by
  unfold Namespace.kind?
  rw [ha.desc ht]

theorem child? (ht : changes.touches id = false) (name : String) :
    ctx'.names.child? id name = ctx.names.child? id name := by
  unfold Namespace.child?
  rw [ha.live? ht]

theorem trail {names : List String} (h : Spared changes (trail ctx.names id names)) :
    Hierarchy.trail ctx'.names id names = Hierarchy.trail ctx.names id names ∧
      ctx'.names.follow? id names = ctx.names.follow? id names := by
  induction names generalizing id with
  | nil => exact ⟨rfl, rfl⟩
  | cons name rest ih =>
    simp only [Hierarchy.trail, follow?] at h ⊢
    cases hchild : ctx.names.child? id name with
    | none =>
      rw [hchild] at h
      rw [ha.child? h.head, hchild]
      exact ⟨rfl, rfl⟩
    | some child =>
      rw [hchild] at h
      obtain ⟨htrail, hfollow⟩ := ih h.tail
      rw [ha.child? h.head, hchild]
      exact ⟨congrArg (id :: ·) htrail, hfollow⟩

theorem templateLink {value : String} (h : Spared changes (templateLink ctx.names value).read) :
    Hierarchy.templateLink ctx'.names value = Hierarchy.templateLink ctx.names value := by
  obtain ⟨htrail, hfollow⟩ := ha.trail h
  unfold Hierarchy.templateLink
  dsimp only
  rw [htrail, hfollow]
  -- what is at the end of a trail has been read, so that its kind is what it was
  cases htarget : ctx.names.follow? Namespace.root (Text.pathNames value) with
  | none => rfl
  | some target =>
    rw [Option.filter_some, Option.filter_some, ha.kind? (h target (target_mem_trail htarget))]

theorem fileLink {file name : String} (h : Spared changes (fileLink ctx.names file name).read) :
    Hierarchy.fileLink ctx'.names file name = Hierarchy.fileLink ctx.names file name := by
  obtain ⟨htrail, hfollow⟩ := ha.trail h
  unfold Hierarchy.fileLink
  dsimp only
  rw [htrail, hfollow]

theorem element? (ht : changes.touches id = false) (hd : ctx.names.descs[id]? = some d) {site : Site}
    (hs : site ∈ d.sites) : ctx'.element? site.element = ctx.element? site.element := by
  unfold Context.element?
  rw [ha.document ht hd hs]

theorem siteLinks (ht : changes.touches id = false) (hd : ctx.names.descs[id]? = some d) {site : Site}
    (hs : site ∈ d.sites) (h : Spared changes (siteLinks ctx d site).read) :
    Hierarchy.siteLinks ctx' d site = Hierarchy.siteLinks ctx d site := by
  unfold Hierarchy.siteLinks at h ⊢
  rw [ha.element? ht hd hs]
  cases he : ctx.element? site.element with
  | none => rfl
  | some e =>
    simp only [he] at h ⊢
    have htemplate : (e.value? "template").map (Hierarchy.templateLink ctx'.names) =
        (e.value? "template").map (Hierarchy.templateLink ctx.names) := by
      cases hv : e.value? "template" with
      | none => rfl
      | some value =>
        rw [hv] at h
        exact congrArg some (ha.templateLink h.left)
    have hfile : ((e.value? "file").map fun file => Hierarchy.fileLink ctx'.names file d.name) =
        (e.value? "file").map fun file => Hierarchy.fileLink ctx.names file d.name := by
      cases hv : e.value? "file" with
      | none => rfl
      | some file =>
        rw [hv] at h
        exact congrArg some (ha.fileLink h.right)
    rw [htemplate, hfile]

theorem descLinks (ht : changes.touches id = false) (hd : ctx.names.descs[id]? = some d)
    (h : Spared changes (descLinks ctx d).read) :
    Hierarchy.descLinks ctx' d = Hierarchy.descLinks ctx d := by
  have run : ∀ sites ⊆ d.sites,
      Spared changes (sites.foldr (fun site rest => (Hierarchy.siteLinks ctx d site).append rest)
        .none).read →
      sites.foldr (fun site rest => (Hierarchy.siteLinks ctx' d site).append rest) .none =
        sites.foldr (fun site rest => (Hierarchy.siteLinks ctx d site).append rest) .none := by
    intro sites hsub h
    induction sites with
    | nil => rfl
    | cons site rest ih =>
      obtain ⟨hsite, hrest⟩ := List.cons_subset.1 hsub
      rw [List.foldr_cons] at h
      rw [List.foldr_cons, List.foldr_cons, ih hrest h.right, ha.siteLinks ht hd hsite h.left]
  exact run d.sites (List.Subset.refl _) h

theorem fromQueue {seen : List DescId} {queue : List (DescId × Bool)}
    (h : Spared changes (Reach.fromQueue ctx seen queue).read) :
    Reach.fromQueue ctx' seen queue = Reach.fromQueue ctx seen queue := by
  induction seen, queue using Reach.fromQueue.induct ctx with
  | case1 seen => rw [Reach.fromQueue_nil, Reach.fromQueue_nil]
  | case2 seen id own rest hs ih =>
    rw [Reach.fromQueue_seen hs] at h
    rw [Reach.fromQueue_seen hs, Reach.fromQueue_seen hs, ih h]
  | case3 seen id own rest hs hd ih =>
    rw [Reach.fromQueue_gone hs hd] at h
    rw [Reach.fromQueue_gone hs hd, Reach.fromQueue_gone hs ((ha.live? h.head).trans hd), ih h.tail]
  | case4 seen id own rest hs d hd links =>
    rename_i ih
    rw [Reach.fromQueue_live hs hd] at h
    have hlinks : Hierarchy.descLinks ctx' d = Hierarchy.descLinks ctx d :=
      ha.descLinks h.head (Namespace.live?_eq_some_iff.1 hd).1 h.tail.left
    rw [Reach.fromQueue_live hs hd, Reach.fromQueue_live hs ((ha.live? h.head).trans hd), hlinks,
      ih h.tail.right]

theorem ofDescs {descs : List DescId} (h : Spared changes (Hierarchy.readOf ctx descs)) :
    Reach.ofDescs ctx' descs = Reach.ofDescs ctx descs :=
  ha.fromQueue h

theorem readOf {descs : List DescId} (h : Spared changes (Hierarchy.readOf ctx descs)) :
    Hierarchy.readOf ctx' descs = Hierarchy.readOf ctx descs :=
  congrArg Reach.read (ha.ofDescs h)

/-! ## Nodes -/

theorem filterMap_live? (h : Spared changes ids) :
    ids.filterMap ctx'.names.live? = ids.filterMap ctx.names.live? :=
  List.filterMap_congr fun id hid => ha.live? (h id hid)

theorem groupChildren (h : Spared changes ids) :
    Hierarchy.groupChildren ctx'.names ids = Hierarchy.groupChildren ctx.names ids := by
  unfold Hierarchy.groupChildren
  rw [ha.filterMap_live? h]

theorem parts (h : Spared changes ids) : Hierarchy.parts ctx' ids = Hierarchy.parts ctx ids := by
  unfold Hierarchy.parts
  rw [ha.filterMap_live? h, ha.schema]
  refine List.flatMap_congr fun d hd => ?_
  refine List.flatMap_congr fun site hs => ?_
  obtain ⟨id, hid, hlive⟩ := List.mem_filterMap.1 hd
  rw [ha.document (h id hid) (Namespace.live?_eq_some_iff.1 hlive).1 hs]

theorem detailOf {main : DescId} (hmain : changes.touches main = false) (h : Spared changes ids) :
    Hierarchy.detailOf ctx' main ids = Hierarchy.detailOf ctx main ids := by
  unfold Hierarchy.detailOf
  rw [ha.kind? hmain, ha.desc hmain, ha.parts h, ha.schema]

theorem viewOf? {name : String} {descs : List DescId}
    (h : Spared changes (Hierarchy.readOf ctx descs)) :
    Hierarchy.viewOf? ctx' name descs = Hierarchy.viewOf? ctx name descs := by
  cases descs with
  | nil => rfl
  | cons main rest =>
    have hmain : changes.touches main = false := by
      refine h main ?_
      unfold Hierarchy.readOf Reach.ofDescs
      rw [List.map_cons]
      cases hd : ctx.names.live? main with
      | none => rw [Reach.fromQueue_gone List.not_mem_nil hd]; exact List.mem_cons_self
      | some d => rw [Reach.fromQueue_live List.not_mem_nil hd]; exact List.mem_cons_self
    have hsources : Spared changes (Reach.ofDescs ctx (main :: rest)).sources :=
      h.mono (Reach.sources_subset_read_fromQueue ctx [] _)
    simp only [Hierarchy.viewOf?, ha.ofDescs h, ha.detailOf hmain hsources]

end Agree

/-! ## Hierarchies -/

theorem Coherent.transfer {h : Hierarchy} (hc : Coherent ctx h) (ha : Agree ctx ctx' changes)
    (hfresh : ∀ ⦃j : NodeId⦄ ⦃x : Node⦄, h.live? j = some x → Spared changes x.read) :
    Coherent ctx' h := by
  have slots : ∀ {j : NodeId} {x : Node}, h.live? j = some x → x.view.slots ctx' = x.view.slots ctx :=
    fun hx => ha.groupChildren ((hfresh hx).mono (hc.hung hx).sources)
  refine ⟨?_, ?_, hc.root, hc.tallied⟩
  · intro j x hx
    refine ⟨(hc.hung hx).root, (hc.hung hx).parent, ?_, (hc.hung hx).sources⟩
    intro p hp
    obtain ⟨hview, hread⟩ := (hc.hung hx).made hp
    have hspared := (hfresh hx).mono hread
    rw [ha.viewOf? hspared, ha.readOf hspared]
    exact ⟨hview, hread⟩
  · intro j x hx
    constructor
    · intro m hm
      rw [slots hx]
      exact (hc.stocked hx).keys hm
    · intro m name descs b hm hslot hb
      rw [slots hx] at hslot
      cases (hc.stocked hx).branch hm hslot hb with
      | pending => exact .pending
      | built hlive hp hname hdescs => exact .built hlive hp hname hdescs
      | missing hnone hread =>
        have hspared := (hfresh hx).mono hread
        refine .missing ?_ ?_
        · rw [ha.viewOf? hspared, hnone]
        · rw [ha.readOf hspared]
          exact hread

end

end Hierarchy
end UILayout
