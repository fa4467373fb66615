import UILayout.Proofs.Hierarchy.Closure
import UILayout.Proofs.Hierarchy.Plain

/-!
# UILayout.Proofs.Hierarchy.Merge

What is merged into the node of a desc. The node is found by its names through effective children, so
that descs of the same names come in from templates and files; the desc itself is the first of them on
every step, and the node is its own.

* `get?_groupChildren`: the descs that are merged into a child.
* `IsOwn.child`: from the node of a desc to that of a child.
* `viewsOfDesc?_own`: the node of a desc, and when there is none.
* `Coherent.ofDesc_own`: the same, of nodes.
-/

namespace UILayout
namespace Hierarchy

open Namespace Schema Markup

/-! ## Grouping children -/

theorem eraseDups_concat (ids : List DescId) (id : DescId) :
    (ids ++ [id]).eraseDups =
      if ids.eraseDups.contains id then ids.eraseDups else ids.eraseDups ++ [id] := by
  rw [List.eraseDups_append]
  by_cases h : id ∈ ids
  · simp [List.removeAll, h, List.eraseDups_nil]
  · simp [List.removeAll, h, List.eraseDups_cons]

theorem nodup_eraseDups (ids : List DescId) : ids.eraseDups.Nodup := by
  induction ids using List.reverseRecOn with
  | nil => exact List.nodup_nil
  | append_singleton rest id ih =>
    rw [eraseDups_concat]
    split
    · exact ih
    · rename_i hid
      refine List.nodup_append.2 ⟨ih, List.nodup_singleton _, fun x hx y hy heq => hid ?_⟩
      rw [List.contains_iff_mem, ← List.mem_singleton.1 hy, ← heq]
      exact hx

theorem head?_eraseDups (ids : List DescId) : ids.eraseDups.head? = ids.head? := by
  cases ids with
  | nil => rfl
  | cons id rest => rw [List.eraseDups_cons, List.head?_cons, List.head?_cons]

/-- The descs of entries with a name. -/
def idsNamed (name : String) (entries : List (String × DescId)) : List DescId :=
  entries.filterMap fun e => if e.1 = name then some e.2 else none

theorem idsNamed_entries {m : NameMap DescId} (h : m.keys.Nodup) (name : String) :
    idsNamed name m.entries = (m.get? name).toList := by
  obtain ⟨entries⟩ := m
  unfold OrderedMap.get? OrderedMap.keys at *
  simp only at h ⊢
  induction entries with
  | nil => rfl
  | cons e rest ih =>
    obtain ⟨hnew, hrest⟩ := List.nodup_cons.1 h
    by_cases he : e.1 = name
    · have hnone : idsNamed name rest = [] := by
        refine List.filterMap_eq_nil_iff.2 fun x hx => if_neg fun hname => hnew ?_
        exact List.mem_map.2 ⟨x, hx, hname.trans he.symm⟩
      rw [List.find?_cons_of_pos (by simpa using he)]
      simp only [idsNamed] at hnone ⊢
      rw [List.filterMap_cons, if_pos he, hnone]
      rfl
    · rw [List.find?_cons_of_neg (by simpa using he), ← ih hrest]
      simp only [idsNamed]
      rw [List.filterMap_cons, if_neg he]

/-- Under a name stand the descs that have been found with that name, each of them once. -/
theorem get?_foldl_group (entries : List (String × DescId)) (name : String) :
    (entries.foldl (fun (m : NameMap (List DescId)) e => m.alter e.1 fun ids? =>
        let ids := ids?.getD []
        if ids.contains e.2 then ids else ids ++ [e.2]) .empty).get? name =
      if idsNamed name entries = [] then none else some (idsNamed name entries).eraseDups := by
  induction entries using List.reverseRecOn generalizing name with
  | nil => rfl
  | append_singleton rest e ih =>
    rw [List.foldl_append, List.foldl_cons, List.foldl_nil, OrderedMap.get?_alter, ih, ih]
    have hnamed : idsNamed name (rest ++ [e]) =
        idsNamed name rest ++ if e.1 = name then [e.2] else [] := by
      simp only [idsNamed, List.filterMap_append]
      by_cases he : e.1 = name <;> simp [he]
    rw [hnamed]
    by_cases he : name = e.1
    · subst he
      have hold : (if idsNamed e.1 rest = [] then none else some (idsNamed e.1 rest).eraseDups).getD [] =
          (idsNamed e.1 rest).eraseDups := by
        split
        · rename_i hnil
          rw [hnil]
          rfl
        · rfl
      simp only [if_true, hold, eraseDups_concat]
      simp
    · simp [he, Ne.symm he]

theorem get?_groupChildren {n : Namespace} (tree : IsTree n) (sources : List DescId) (name : String) :
    (groupChildren n sources).get? name =
      if sources.filterMap (n.child? · name) = [] then none
      else some (sources.filterMap (n.child? · name)).eraseDups := by
  have hids : idsNamed name ((sources.filterMap n.live?).flatMap (·.children.entries)) =
      sources.filterMap (n.child? · name) := by
    induction sources with
    | nil => rfl
    | cons source rest ih =>
      rw [List.filterMap_cons, List.filterMap_cons, child?]
      cases hd : n.live? source with
      | none => exact ih
      | some d =>
        have hentries := idsNamed_entries (tree.distinct (Namespace.live?_eq_some_iff.1 hd).1) name
        simp only [idsNamed] at hentries ih ⊢
        rw [List.flatMap_cons, List.filterMap_append, hentries, ih, Option.bind_some]
        cases d.children.get? name <;> rfl
  unfold groupChildren
  rw [get?_foldl_group, hids]

/-- The children that a name stands for are descs of the tree, each of them once. -/
theorem slot_descs {n : Namespace} (tree : IsTree n) {sources descs : List DescId} {name : String}
    (h : (groupChildren n sources).get? name = some descs) :
    descs.Nodup ∧ ∀ c ∈ descs, ∃ d, n.live? c = some d := by
  rw [get?_groupChildren tree] at h
  split at h
  · cases h
  · cases h
    refine ⟨nodup_eraseDups _, fun c hc => ?_⟩
    obtain ⟨source, -, hchild⟩ := List.mem_filterMap.1 (List.mem_eraseDups.1 hc)
    obtain ⟨sd, hsd, hget⟩ := Option.bind_eq_some_iff.1 hchild
    obtain ⟨d, hd, -⟩ := tree.live_child hsd hget
    exact ⟨d, hd⟩

/-! ## What is merged -/

/-- A desc is merged into the node at a path: what is merged into the node above leads by links to a
desc that has it for its child of the last name. -/
inductive MergedAt (ctx : Context) : List String → DescId → Prop where
  | root : MergedAt ctx [] Namespace.root
  | child {path : List String} {name : String} {id source c : DescId} (above : MergedAt ctx path id)
      (hlinks : Relation.ReflTransGen (LinksTo ctx) id source)
      (hc : ctx.names.child? source name = some c) : MergedAt ctx (path ++ [name]) c

/-- On the way down a path, something that is merged into a node links to nowhere. -/
def BrokenAlong (ctx : Context) (path : List String) : Prop :=
  ∃ place, place <+: path ∧ ∃ c, MergedAt ctx place c ∧ LinksNowhere ctx c

section

variable {ctx : Context} {path : List String} {name : String} {id c : DescId} {d : Desc} {v : View}

theorem mergedAt_nil_iff : MergedAt ctx [] c ↔ c = Namespace.root := by
  constructor
  · intro h
    generalize hp : ([] : List String) = place at h
    cases h with
    | root => rfl
    | child above hlinks hc => exact absurd hp.symm (List.append_ne_nil_of_right_ne_nil _ (by simp))
  · rintro rfl
    exact .root

theorem mergedAt_concat_iff : MergedAt ctx (path ++ [name]) c ↔
    ∃ id source, MergedAt ctx path id ∧ Relation.ReflTransGen (LinksTo ctx) id source ∧
      ctx.names.child? source name = some c := by
  constructor
  · intro h
    generalize hp : path ++ [name] = place at h
    cases h with
    | root => exact absurd hp (List.append_ne_nil_of_right_ne_nil _ (by simp))
    | child above hlinks hc =>
      obtain ⟨rfl, hname⟩ := List.append_inj' hp rfl
      cases hname
      exact ⟨_, _, above, hlinks, hc⟩
  · rintro ⟨id, source, above, hlinks, hc⟩
    exact .child above hlinks hc

/-- A desc is merged into the node at its own path. -/
theorem mergedAt_of_path? (tree : IsTree ctx.names) (hd : ctx.names.live? id = some d)
    (hpath : ctx.names.path? id = some path) : MergedAt ctx path id := by
  refine tree.path?_induct (P := fun id _ path => MergedAt ctx path id) ?_ ?_ hd hpath
  · exact fun _ => .root
  · exact fun _ _ hchild _ ih => .child ih .refl hchild

theorem brokenAlong_concat_iff : BrokenAlong ctx (path ++ [name]) ↔
    BrokenAlong ctx path ∨ ∃ c, MergedAt ctx (path ++ [name]) c ∧ LinksNowhere ctx c := by
  constructor
  · rintro ⟨place, hplace, hbroken⟩
    rcases List.prefix_concat_iff.1 hplace with rfl | hplace
    · exact .inr hbroken
    · exact .inl ⟨place, hplace, hbroken⟩
  · rintro (⟨place, hplace, hbroken⟩ | hbroken)
    · exact ⟨place, hplace.trans (List.prefix_append _ _), hbroken⟩
    · exact ⟨_, List.prefix_rfl, hbroken⟩

/-! ## The own node of a desc -/

/-- The kind of a node is that of its main desc. -/
theorem kind_detailOf (hd : ctx.names.live? id = some d) (sources : List DescId) :
    (detailOf ctx id sources).kind = d.kind := by
  have hk : ctx.names.kind? id = some d.kind := by
    rw [Namespace.kind?, (Namespace.live?_eq_some_iff.1 hd).1, Option.map_some]
  unfold detailOf
  rw [hk]
  cases d.kind <;> rfl

/-- `v` is the node of the desc `id` at `path`: the desc comes first, and all that is merged there has
part in it. -/
structure IsOwn (ctx : Context) (path : List String) (id : DescId) (v : View) : Prop where
  desc : ∃ d, ctx.names.live? id = some d ∧ v.name = d.name ∧ v.detail.kind = d.kind
  main : v.main = id
  first : v.descs.head? = some id
  nodup : v.descs.Nodup
  descs : ∀ c, c ∈ v.descs ↔ MergedAt ctx path c
  live : ∀ c ∈ v.descs, ∃ x, ctx.names.live? c = some x
  sources : v.sources = (Reach.ofDescs ctx v.descs).sources

/-- Nothing is declared at the root of the namespace. -/
theorem not_linksNowhere_root (settled : Settled ctx.names) :
    ¬ LinksNowhere ctx Namespace.root := by
  rintro ⟨d, file, hd, ⟨site, hsite, -⟩, -⟩
  rw [settled.anchored.root (Namespace.live?_eq_some_iff.1 hd).1] at hsite
  cases hsite

theorem isOwn_root (settled : Settled ctx.names) : IsOwn ctx [] Namespace.root .root := by
  obtain ⟨d, hd, hk, -, hname, -⟩ := settled.tree.root
  have hlive : ctx.names.live? Namespace.root = some d :=
    Namespace.live?_eq_some_iff.2 ⟨hd, settled.tree.rootLive hd⟩
  have hplain : Unlinked ctx d := by
    intro site hsite
    rw [settled.anchored.root hd] at hsite
    cases hsite
  refine ⟨⟨d, hlive, hname.symm, hk.symm⟩, rfl, rfl, List.nodup_singleton _, ?_, ?_, ?_⟩
  · intro c
    rw [mergedAt_nil_iff]
    exact List.mem_singleton
  · intro c hc
    rw [List.mem_singleton.1 hc]
    exact ⟨d, hlive⟩
  · rw [show View.root.descs = [Namespace.root] from rfl, Reach.ofDescs_plain hlive hplain]
    rfl

/-- Among the children of a name below the sources of a node, that of its own desc is the first. -/
theorem IsOwn.slot (h : IsOwn ctx path id v) (tree : IsTree ctx.names)
    (hc : ctx.names.child? id name = some c) :
    ∃ descs, (v.slots ctx).get? name = some descs ∧ descs.head? = some c ∧ descs.Nodup ∧
      (∀ x, x ∈ descs ↔ MergedAt ctx (path ++ [name]) x) ∧
      ∀ x ∈ descs, ∃ d, ctx.names.live? x = some d := by
  have hhead : v.sources.head? = some id := by
    obtain ⟨rest, hrest⟩ := Reach.prefix_sources h.live h.nodup
    rw [h.sources, ← hrest, List.head?_append, h.first]
    rfl
  obtain ⟨more, hmore⟩ : ∃ more, v.sources = id :: more := by
    cases hs : v.sources with
    | nil => rw [hs] at hhead; cases hhead
    | cons first more => rw [hs] at hhead; cases hhead; exact ⟨more, rfl⟩
  have hids : v.sources.filterMap (ctx.names.child? · name) =
      c :: more.filterMap (ctx.names.child? · name) := by
    simp only [hmore, List.filterMap_cons, hc]
  have hmem : ∀ x, x ∈ v.sources.filterMap (ctx.names.child? · name) ↔
      MergedAt ctx (path ++ [name]) x := by
    intro x
    rw [mergedAt_concat_iff, List.mem_filterMap]
    constructor
    · rintro ⟨source, hsource, hx⟩
      rw [h.sources, Reach.mem_sources_iff h.live tree] at hsource
      obtain ⟨start, hstart, hlinks⟩ := hsource
      exact ⟨start, source, (h.descs start).1 hstart, hlinks, hx⟩
    · rintro ⟨start, source, hstart, hlinks, hx⟩
      refine ⟨source, ?_, hx⟩
      rw [h.sources, Reach.mem_sources_iff h.live tree]
      exact ⟨start, (h.descs start).2 hstart, hlinks⟩
  have hget : (v.slots ctx).get? name =
      some (v.sources.filterMap (ctx.names.child? · name)).eraseDups := by
    rw [View.slots, get?_groupChildren tree, if_neg (by rw [hids]; exact List.cons_ne_nil _ _)]
  obtain ⟨hnodup, hlive⟩ := slot_descs tree hget
  refine ⟨_, hget, ?_, hnodup, ?_, hlive⟩
  · rw [head?_eraseDups, hids, List.head?_cons]
  · intro x
    rw [List.mem_eraseDups, hmem]

/-- From the node of a desc the walk comes to the node of its child, unless something that is merged
into that one links to nowhere. -/
theorem IsOwn.child (h : IsOwn ctx path id v) (tree : IsTree ctx.names)
    (hc : ctx.names.child? id name = some c) :
    (∃ v', v.child? ctx name = some v' ∧ IsOwn ctx (path ++ [name]) c v' ∧
        ¬ ∃ x, MergedAt ctx (path ++ [name]) x ∧ LinksNowhere ctx x) ∨
      v.child? ctx name = none ∧ ∃ x, MergedAt ctx (path ++ [name]) x ∧ LinksNowhere ctx x := by
  obtain ⟨descs, hslot, hfirst, hnodup, hmerged, hlive⟩ := h.slot tree hc
  obtain ⟨more, rfl⟩ : ∃ more, descs = c :: more := by
    cases descs with
    | nil => cases hfirst
    | cons first more => cases hfirst; exact ⟨more, rfl⟩
  have hbroken : (Reach.ofDescs ctx (c :: more)).broken = true ↔
      ∃ x, MergedAt ctx (path ++ [name]) x ∧ LinksNowhere ctx x := by
    rw [Reach.broken_iff hlive hnodup]
    exact exists_congr fun x => and_congr_left' (hmerged x)
  rw [View.child?, hslot, Option.bind_some, viewOf?]
  cases hb : (Reach.ofDescs ctx (c :: more)).broken with
  | true => exact .inr ⟨rfl, hbroken.1 hb⟩
  | false =>
    obtain ⟨d, hd⟩ := hlive c List.mem_cons_self
    obtain ⟨pd, hpd, hget⟩ := Option.bind_eq_some_iff.1 hc
    obtain ⟨d', hd', hname, -⟩ := tree.live_child hpd hget
    rw [hd] at hd'
    cases hd'
    refine .inl ⟨_, rfl, ?_, fun hx => Bool.false_ne_true (hb.symm.trans (hbroken.2 hx))⟩
    exact ⟨⟨d, hd, hname.symm, kind_detailOf hd _⟩, rfl, rfl, hnodup, hmerged, hlive, rfl⟩

/-! ## Down from the root -/

theorem descendViews?_concat (l : List View) (names : List String) (name : String) :
    descendViews? ctx l (names ++ [name]) =
      (descendViews? ctx l names).bind (childViews? ctx · name) := by
  induction names generalizing l with
  | nil =>
    rw [List.nil_append, descendViews?, descendViews?, Option.bind_some]
    cases childViews? ctx l name <;> rfl
  | cons first rest ih =>
    rw [List.cons_append, descendViews?, descendViews?]
    cases childViews? ctx l first with
    | none => rfl
    | some next => exact ih next

theorem viewsOfDesc?_root (tree : IsTree ctx.names) :
    viewsOfDesc? ctx Namespace.root = some [.root] := by
  obtain ⟨names, hnames, hrev⟩ := Option.map_eq_some_iff.1 tree.path?_root
  rw [viewsOfDesc?, hnames, List.reverse_eq_nil_iff.1 hrev]
  rfl

/-- The node of a desc is the child of its name below the node of its parent. -/
theorem viewsOfDesc?_below {p : DescId} {pd : Desc} (hd : ctx.names.live? id = some d)
    (hb : d.IsBelow id p pd) :
    viewsOfDesc? ctx id = (viewsOfDesc? ctx p).bind (childViews? ctx · d.name) := by
  rw [viewsOfDesc?, viewsOfDesc?, namesUp?, hd, Option.bind_some, if_neg hb.kind_ne, hb.parent?]
  simp only [hb.lt, if_true]
  cases namesUp? ctx.names p with
  | none => rfl
  | some names =>
    simp only [Option.map_some, Option.bind_some, List.reverse_cons]
    exact descendViews?_concat _ _ _

/-- The views that a desc stands for: its own and that of its parent, and so on; there are none just
when the way down is broken. -/
theorem viewsOfDesc?_own (settled : Settled ctx.names) (hd : ctx.names.live? id = some d)
    (hpath : ctx.names.path? id = some path) :
    (∃ v l, viewsOfDesc? ctx id = some (v :: l) ∧ IsOwn ctx path id v ∧
        (d.parent? = none ∧ l = [] ∨ ∃ p, d.parent? = some p ∧ viewsOfDesc? ctx p = some l) ∧
        ¬ BrokenAlong ctx path) ∨
      viewsOfDesc? ctx id = none ∧ BrokenAlong ctx path := by
  have tree := settled.tree
  refine tree.path?_induct (P := fun id d path =>
    (∃ v l, viewsOfDesc? ctx id = some (v :: l) ∧ IsOwn ctx path id v ∧
        (d.parent? = none ∧ l = [] ∨ ∃ p, d.parent? = some p ∧ viewsOfDesc? ctx p = some l) ∧
        ¬ BrokenAlong ctx path) ∨
      viewsOfDesc? ctx id = none ∧ BrokenAlong ctx path) ?_ ?_ hd hpath
  · intro d hd
    obtain ⟨r, hr, hparent⟩ := tree.live_root
    rw [hd] at hr
    cases hr
    refine .inl ⟨.root, [], viewsOfDesc?_root tree, isOwn_root settled, .inl ⟨hparent, rfl⟩, ?_⟩
    rintro ⟨place, hplace, c, hc, hnowhere⟩
    rw [List.prefix_nil.1 hplace, mergedAt_nil_iff] at hc
    exact not_linksNowhere_root settled (hc ▸ hnowhere)
  · intro p id pd d above hd hb hchild _ ih
    rw [viewsOfDesc?_below hd hb, brokenAlong_concat_iff]
    rcases ih with ⟨v, l, hviews, hown, -, hwhole⟩ | ⟨hnone, hbroken⟩
    · rw [hviews, Option.bind_some, childViews?, List.head?_cons, Option.bind_some]
      rcases hown.child tree hchild with ⟨v', hv', hown', hsound⟩ | ⟨hv', hbroken⟩
      · rw [hv', Option.map_some]
        exact .inl ⟨v', v :: l, rfl, hown', .inr ⟨p, hb.parent?, hviews⟩, not_or.2 ⟨hwhole, hsound⟩⟩
      · rw [hv']
        exact .inr ⟨rfl, .inr hbroken⟩
    · rw [hnone]
      exact .inr ⟨rfl, .inl hbroken⟩

/-! ## Nodes -/

/-- A node is that of a desc: it has its name and its kind, all that is merged at the path has part in
it, and it lies below the node that the parent of the desc leads to. -/
structure Node.IsOf (ctx : Context) (h : Hierarchy) (n : Node) (path : List String) (id : DescId)
    (d : Desc) : Prop where
  main : n.main = id
  name : n.name = d.name
  kind : n.kind = d.kind
  descs : ∀ c, c ∈ n.descs ↔ MergedAt ctx path c
  parent? : n.parent? = d.parent?.bind fun p => (h.ofDesc ctx p).1

/-- Views are those of at least one node. -/
theorem Denotes.ne_nil {h : Hierarchy} {node : NodeId} {l : List View} (hd : h.Denotes node l) :
    l ≠ [] := by
  obtain ⟨n, rest, -, rfl, -⟩ := hd.exists_node
  exact List.cons_ne_nil _ _

/-- Two ways to nodes of the same views lead to the same node. -/
theorem Coherent.ofDesc_eq {h : Hierarchy} (hc : Coherent ctx h) {node : NodeId} {l : List View}
    (hd : h.Denotes node l) (hviews : viewsOfDesc? ctx id = some l) :
    (h.ofDesc ctx id).1 = some node := by
  obtain ⟨hc₁, he₁, hanswer⟩ := hc.ofDesc id
  rw [hviews] at hanswer
  generalize h.ofDesc ctx id = r at hc₁ he₁ hanswer
  obtain ⟨found?, h₁⟩ := r
  cases hanswer with
  | some hd' => exact congrArg some (hc₁.eq_of_denotes hd' (hd.mono he₁))

theorem Coherent.ofDesc_own {h : Hierarchy} (hc : Coherent ctx h) (settled : Settled ctx.names)
    (hd : ctx.names.live? id = some d) (hpath : ctx.names.path? id = some path) :
    (∀ node, (h.ofDesc ctx id).1 = some node → ∃ n, (h.ofDesc ctx id).2.live? node = some n ∧
        n.IsOf ctx (h.ofDesc ctx id).2 path id d) ∧
      ((h.ofDesc ctx id).1 = none ↔ BrokenAlong ctx path) := by
  obtain ⟨hc₁, -, hanswer⟩ := hc.ofDesc id
  generalize h.ofDesc ctx id = r at hc₁ hanswer
  obtain ⟨found?, h₁⟩ := r
  dsimp only at hc₁ hanswer ⊢
  rcases viewsOfDesc?_own settled hd hpath with ⟨v, l, hviews, hown, hparent, hwhole⟩ | ⟨hviews, hbroken⟩
  · rw [hviews] at hanswer
    cases hanswer with
    | @some node _ hdenotes =>
      refine ⟨?_, iff_of_false (Option.some_ne_none _) hwhole⟩
      rintro _ ⟨⟩
      obtain ⟨n, rest, hn, heq, hup⟩ := hdenotes.exists_node
      obtain ⟨rfl, rfl⟩ := List.cons.inj heq
      obtain ⟨x, hx, hname, hkind⟩ := hown.desc
      rw [hd] at hx
      cases hx
      refine ⟨n, hn, hown.main, hname, hkind, hown.descs, ?_⟩
      rcases hparent with ⟨hp, rfl⟩ | ⟨p, hp, hviews'⟩
      · rcases hup with ⟨hq, -⟩ | ⟨q, -, hrest⟩
        · rw [hq, hp]
          rfl
        · exact absurd rfl hrest.ne_nil
      · rcases hup with ⟨-, rfl⟩ | ⟨q, hq, hrest⟩
        · have hnil := (hc₁.ofDesc p).answer
          rw [hviews'] at hnil
          generalize (h₁.ofDesc ctx p).1 = a at hnil
          cases hnil with
          | some hd' => exact absurd rfl hd'.ne_nil
        · rw [hq, hp, Option.bind_some, hc₁.ofDesc_eq hrest hviews']
  · rw [hviews] at hanswer
    cases hanswer
    exact ⟨nofun, iff_of_true rfl hbroken⟩

end

end Hierarchy
end UILayout
