import UILayout.Proofs.Hierarchy.Walk
import UILayout.Proofs.Namespace.Order

/-!
# UILayout.Proofs.Hierarchy.Plain

Where no link is around, the hierarchy is the tree of descs: the node of a desc has that desc for its
only source, and its children are those of the desc, in their order. A child with a `file` attribute
that leads nowhere is left out.

* `Reach.ofDescs_plain`: a desc without links leads to nothing else.
* `viewsOfDesc?_plain`: the node of a desc with no link around it.
* `Coherent.childNames?_plain`: the names of its children.
-/

namespace UILayout
namespace Hierarchy

open Namespace Schema Markup

/-- No element that declares a desc has a link. -/
def Unlinked (ctx : Context) (d : Desc) : Prop :=
  ∀ site ∈ d.sites, ∀ e, ctx.element? site.element = some e →
    e.value? "template" = none ∧ e.value? "file" = none

/-- No desc from the root down a path has a link. -/
def UnlinkedAlong (ctx : Context) (path : List String) : Prop :=
  ∀ ⦃id : DescId⦄ ⦃d : Desc⦄ ⦃above : List String⦄, ctx.names.live? id = some d →
    ctx.names.path? id = some above → above <+: path → Unlinked ctx d

/-- A desc has a child of a name, with no `file` attribute that leads nowhere. -/
def hasWhole (ctx : Context) (id : DescId) (name : String) : Bool :=
  (ctx.names.child? id name).any fun child => !(Reach.ofDescs ctx [child]).broken

/-- The names of the children of the node of a desc, in the order in which these are listed. -/
def childNames? (ctx : Context) (h : Hierarchy) (id : DescId) : Option (List String) :=
  match h.ofDesc ctx id with
  | (none, _) => none
  | (some node, h) =>
    let found := h.children ctx node
    some (found.1.map fun child => ((found.2.node? child).map (·.name)).getD "")

/-! ## One source -/

theorem siteLinks_eq_none {ctx : Context} (d : Desc) {site : Site}
    (h : ∀ e, ctx.element? site.element = some e →
      e.value? "template" = none ∧ e.value? "file" = none) : siteLinks ctx d site = .none := by
  unfold siteLinks
  cases he : ctx.element? site.element with
  | none => rfl
  | some e =>
    obtain ⟨htemplate, hfile⟩ := h e he
    simp [htemplate, hfile, Links.none, Links.append]

theorem descLinks_eq_none {ctx : Context} {d : Desc} (h : Unlinked ctx d) :
    descLinks ctx d = .none := by
  unfold descLinks
  unfold Unlinked at h
  generalize d.sites = sites at h
  induction sites with
  | nil => rfl
  | cons site rest ih =>
    rw [List.foldr_cons, ih fun other hother => h other (List.mem_cons_of_mem _ hother),
      siteLinks_eq_none d (h site List.mem_cons_self)]
    rfl

theorem Reach.ofDescs_plain {ctx : Context} {id : DescId} {d : Desc} (hd : ctx.names.live? id = some d)
    (h : Unlinked ctx d) : ofDescs ctx [id] = ⟨[id], [id], false⟩ := by
  rw [ofDescs, List.map_singleton, fromQueue_live List.not_mem_nil hd, descLinks_eq_none h]
  simp [Links.none, fromQueue_nil, cons, none]

/-- One desc has its own children, each of which would be made from one desc. -/
theorem groupChildren_singleton {n : Namespace} {id : DescId} {d : Desc} (hd : n.live? id = some d)
    (hkeys : d.children.keys.Nodup) : groupChildren n [id] = d.children.map ([·]) := by
  have hchildren : ([id].filterMap n.live?).flatMap (·.children.entries) = d.children.entries := by
    simp [hd]
  have hgroups := OrderedMap.entries_foldl_alter (fun (child : DescId) (ids? : Option (List DescId)) =>
    if (ids?.getD []).contains child then ids?.getD [] else ids?.getD [] ++ [child])
    (m := .empty) hkeys
  unfold groupChildren OrderedMap.map
  rw [hchildren]
  exact congrArg OrderedMap.mk hgroups

section

variable {ctx : Context} {id child : DescId} {d : Desc} {name : String}

theorem viewOf?_plain (hd : ctx.names.live? id = some d) (h : Unlinked ctx d) (name : String) :
    viewOf? ctx name [id] = some ⟨name, id, [id], detailOf ctx id [id], [id]⟩ := by
  simp [viewOf?, Reach.ofDescs_plain hd h]

/-- Of a view with one source, the children are those of the source. -/
theorem child?_of_sources (tree : IsTree ctx.names) {v : View} (hv : v.sources = [id])
    (hd : ctx.names.live? id = some d) (name : String) :
    v.child? ctx name = (ctx.names.child? id name).bind fun child => viewOf? ctx name [child] := by
  have hkeys := tree.distinct (Namespace.live?_eq_some_iff.1 hd).1
  rw [View.child?, View.slots, hv, groupChildren_singleton hd hkeys, OrderedMap.get?_map,
    Namespace.child?, hd, Option.bind_some]
  cases d.children.get? name <;> rfl

theorem isSome_viewOf?_singleton (child : DescId) :
    (viewOf? ctx name [child]).isSome = !(Reach.ofDescs ctx [child]).broken := by
  unfold viewOf?
  cases (Reach.ofDescs ctx [child]).broken <;> rfl

/-! ## The node of a desc -/

/-- Walking down from a desc, as long as no desc that is met has a link. -/
theorem descendViews?_plain (tree : IsTree ctx.names) {above names : List String}
    (hplain : UnlinkedAlong ctx (above ++ names)) {start : DescId} {v : View} {l : List View}
    (hv : v.sources = [start]) (habove : ctx.names.path? start = some above)
    (hnames : ctx.names.follow? start names = some id) :
    ∃ v' l', descendViews? ctx (v :: l) names = some (v' :: l') ∧ v'.sources = [id] := by
  induction names generalizing above start v l with
  | nil =>
    cases hnames
    exact ⟨v, l, rfl, hv⟩
  | cons name rest ih =>
    obtain ⟨child, hchild, hrest⟩ := Option.bind_eq_some_iff.1 hnames
    obtain ⟨d, hd⟩ := live_of_path? habove
    have hpath := tree.path?_child habove hchild
    obtain ⟨x, hx⟩ := live_of_path? hpath
    have hsplit : above ++ name :: rest = (above ++ [name]) ++ rest := by simp
    rw [hsplit] at hplain
    have hview := viewOf?_plain hx (hplain hx hpath (List.prefix_append _ _)) name
    rw [descendViews?, childViews?, List.head?_cons, Option.bind_some, child?_of_sources tree hv hd,
      hchild, Option.bind_some, hview, Option.map_some, Option.bind_some]
    exact ih hplain rfl hpath hrest

theorem viewsOfDesc?_plain (tree : IsTree ctx.names) {path : List String}
    (hpath : ctx.names.path? id = some path) (hplain : UnlinkedAlong ctx path) :
    ∃ v l, viewsOfDesc? ctx id = some (v :: l) ∧ v.sources = [id] := by
  obtain ⟨names, hnames, rfl⟩ := Option.map_eq_some_iff.1 hpath
  rw [viewsOfDesc?, hnames, Option.bind_some]
  exact descendViews?_plain tree hplain rfl tree.path?_root (tree.follow?_of_path? hpath)

theorem hasWhole_of_unlinked {child : DescId} (hchild : ctx.names.child? id name = some child)
    (hd : ctx.names.live? child = some d) (h : Unlinked ctx d) : hasWhole ctx id name = true := by
  rw [hasWhole, hchild, Option.any_some, Reach.ofDescs_plain hd h]
  rfl

/-- The children of a node with one source, by name. -/
theorem names_childrenViews (tree : IsTree ctx.names) {v : View} {l : List View}
    (hv : v.sources = [id]) (hd : ctx.names.live? id = some d) :
    (childrenViews ctx (v :: l)).map (fun l => (l.head?.map (·.name)).getD "") =
      (ctx.names.namesAt id).filter (hasWhole ctx id) := by
  have hid := (Namespace.live?_eq_some_iff.1 hd).1
  have hkeys : (v.slots ctx).keys = ctx.names.namesAt id := by
    rw [View.slots, hv, groupChildren_singleton hd (tree.distinct hid), OrderedMap.keys_map,
      namesAt_of_descs hid]
  rw [childrenViews, hkeys]
  generalize ctx.names.namesAt id = names
  induction names with
  | nil => rfl
  | cons name rest ih =>
    have hwhole : (childViews? ctx (v :: l) name).isSome = hasWhole ctx id name := by
      rw [childViews?, List.head?_cons, Option.bind_some, Option.isSome_map, child?_of_sources tree hv hd,
        hasWhole]
      cases ctx.names.child? id name with
      | none => rfl
      | some child => exact isSome_viewOf?_singleton child
    rw [List.filterMap_cons, List.filter_cons, ← hwhole]
    cases hchild : childViews? ctx (v :: l) name with
    | none => exact ih
    | some found =>
      rw [List.map_cons, ih, Coherent.name_of_childViews? hchild]
      rfl

/-- The node of a desc with no link around it has the children of the desc, but for those that link
to nowhere. -/
theorem Coherent.childNames?_plain {h : Hierarchy} (hc : Coherent ctx h) (tree : IsTree ctx.names)
    {path : List String} (hpath : ctx.names.path? id = some path) (hplain : UnlinkedAlong ctx path) :
    h.childNames? ctx id = some ((ctx.names.namesAt id).filter (hasWhole ctx id)) := by
  obtain ⟨d, hd⟩ := live_of_path? hpath
  obtain ⟨v, l, hviews, hv⟩ := viewsOfDesc?_plain tree hpath hplain
  have hnode := hc.ofDesc id
  rw [hviews] at hnode
  obtain ⟨hc₁, -, hanswer⟩ := hnode
  unfold childNames?
  generalize h.ofDesc ctx id = r at hc₁ hanswer
  obtain ⟨node, h₁⟩ := r
  cases hanswer with
  | some hdenotes =>
    have hchildren := (hc₁.children hdenotes).answer
    dsimp only
    exact congrArg some ((hchildren.map_node? View.name "").trans (names_childrenViews tree hv hd))

end

end Hierarchy
end UILayout
