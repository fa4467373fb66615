import UILayout.Proofs.Hierarchy.View
import UILayout.Proofs.Namespace.Path

/-!
# UILayout.Proofs.Hierarchy.Reach

The search for links ends with all that the links lead to: every desc that it starts from is among the
sources, and with a source all descs of the tree that its links point at.

* `Reach.mem_sources_of_mem_queue`: what waits in the queue becomes a source.
* `Reach.closed_fromQueue`: what a source links to has been seen before or becomes a source.
* `Reach.mem_sources_of_template`: the target of a template is among the sources.
-/

namespace UILayout
namespace Hierarchy

open Markup Namespace

/-! ## The links of a desc -/

theorem targets_subset_append (links more : Links) : links.targets ⊆ (links.append more).targets :=
  List.subset_append_left _ _

theorem targets_descLinks (ctx : Context) (d : Desc) :
    (descLinks ctx d).targets = d.sites.flatMap fun site => (siteLinks ctx d site).targets := by
  unfold descLinks
  generalize d.sites = sites
  induction sites with
  | nil => rfl
  | cons site rest ih =>
    rw [List.foldr_cons, List.flatMap_cons, ← ih]
    rfl

theorem siteLinks_subset_descLinks (ctx : Context) {d : Desc} {site : Site} (h : site ∈ d.sites) :
    (siteLinks ctx d site).targets ⊆ (descLinks ctx d).targets := by
  rw [targets_descLinks]
  exact fun target htarget => List.mem_flatMap.2 ⟨site, h, htarget⟩

theorem templateLink_subset_siteLinks {ctx : Context} (d : Desc) {site : Site} {e : Element}
    {value : String} (he : ctx.element? site.element = some e) (hv : e.value? "template" = some value) :
    (templateLink ctx.names value).targets ⊆ (siteLinks ctx d site).targets := by
  unfold siteLinks
  simp only [he, hv, Option.map_some, Option.getD_some]
  exact targets_subset_append _ _

theorem mem_targets_templateLink {n : Namespace} {value : String} {target : DescId} :
    target ∈ (templateLink n value).targets ↔
      n.follow? Namespace.root (Text.pathNames value) = some target ∧ n.kind? target ≠ some .file := by
  simp [templateLink, Option.filter_eq_some_iff]

/-- Names lead from a desc of the tree to a desc of the tree. -/
theorem live_of_follow? {n : Namespace} (tree : IsTree n) {names : List String} {id target : DescId}
    (hid : ∃ d, n.live? id = some d) (h : n.follow? id names = some target) :
    ∃ d, n.live? target = some d := by
  induction names generalizing id with
  | nil =>
    cases h
    exact hid
  | cons name rest ih =>
    obtain ⟨d, hd⟩ := hid
    obtain ⟨child, hchild, hrest⟩ := Option.bind_eq_some_iff.1 h
    rw [child?, hd, Option.bind_some] at hchild
    obtain ⟨d', hd', -⟩ := tree.live_child hd hchild
    exact ih ⟨d', hd'⟩ hrest

/-! ## The sources -/

namespace Reach

variable {ctx : Context} {seen : List DescId} {queue : List (DescId × Bool)} {id target : DescId}
  {d t : Desc}

theorem mem_sources_of_mem_queue (hs : id ∉ seen) (hd : ctx.names.live? id = some d) {own : Bool}
    (h : (id, own) ∈ queue) : id ∈ (fromQueue ctx seen queue).sources := by
  induction seen, queue using fromQueue.induct ctx with
  | case1 seen => cases h
  | case2 seen first own' rest hseen ih =>
    rw [fromQueue_seen hseen]
    refine ih hs ((List.mem_cons.1 h).resolve_left ?_)
    rintro ⟨⟩
    exact hs hseen
  | case3 seen first own' rest hseen hgone ih =>
    rw [fromQueue_gone hseen hgone]
    refine ih hs ((List.mem_cons.1 h).resolve_left ?_)
    rintro ⟨⟩
    rw [hd] at hgone
    cases hgone
  | case4 seen first own' rest hseen d' hd' links =>
    rename_i ih
    rw [fromQueue_live hseen hd']
    by_cases heq : id = first
    · rw [heq]
      exact List.mem_cons_self
    · refine List.mem_cons_of_mem _ (ih ?_ ?_)
      · rw [List.mem_cons, not_or]
        exact ⟨heq, hs⟩
      · refine List.mem_append_left _ ((List.mem_cons.1 h).resolve_left ?_)
        rintro ⟨⟩
        exact heq rfl

theorem closed_fromQueue (h : id ∈ (fromQueue ctx seen queue).sources)
    (hd : ctx.names.live? id = some d) (hlink : target ∈ (descLinks ctx d).targets)
    (ht : ctx.names.live? target = some t) :
    target ∈ seen ∨ target ∈ (fromQueue ctx seen queue).sources := by
  induction seen, queue using fromQueue.induct ctx with
  | case1 seen =>
    rw [fromQueue_nil] at h
    cases h
  | case2 seen first own rest hseen ih =>
    rw [fromQueue_seen hseen] at h ⊢
    exact ih h
  | case3 seen first own rest hseen hgone ih =>
    rw [fromQueue_gone hseen hgone] at h ⊢
    exact ih h
  | case4 seen first own rest hseen d' hd' links =>
    rename_i ih
    rw [fromQueue_live hseen hd'] at h ⊢
    have hmet : target ∈ first :: seen ∨ target ∈ (fromQueue ctx (first :: seen)
        (rest ++ (descLinks ctx d').targets.map (·, false))).sources := by
      rcases List.mem_cons.1 h with rfl | h
      · -- the links of the first desc stand in the queue that is left
        rw [hd] at hd'
        cases hd'
        have hqueue : (target, false) ∈ rest ++ (descLinks ctx d).targets.map (·, false) :=
          List.mem_append_right _ (List.mem_map.2 ⟨target, hlink, rfl⟩)
        exact or_iff_not_imp_left.2 fun hnew => mem_sources_of_mem_queue hnew ht hqueue
      · exact ih h
    rcases hmet with hmet | hmet
    · rcases List.mem_cons.1 hmet with rfl | hmet
      · exact .inr List.mem_cons_self
      · exact .inl hmet
    · exact .inr (List.mem_cons_of_mem _ hmet)

/-- A desc that the search starts from adds the targets of its templates. -/
theorem mem_sources_of_template (tree : IsTree ctx.names) {descs : List DescId} (hid : id ∈ descs)
    (hd : ctx.names.live? id = some d) {site : Site} (hsite : site ∈ d.sites) {e : Element}
    (he : ctx.element? site.element = some e) {value : String} (hv : e.value? "template" = some value)
    (htarget : target ∈ (templateLink ctx.names value).targets) :
    target ∈ (ofDescs ctx descs).sources := by
  obtain ⟨t, ht⟩ := live_of_follow? tree ⟨_, tree.live_root.choose_spec.1⟩
    (mem_targets_templateLink.1 htarget).1
  have hlink : target ∈ (descLinks ctx d).targets := siteLinks_subset_descLinks ctx hsite
    (templateLink_subset_siteLinks d he hv htarget)
  have hsource : id ∈ (ofDescs ctx descs).sources :=
    mem_sources_of_mem_queue List.not_mem_nil hd (List.mem_map.2 ⟨id, hid, rfl⟩)
  exact (closed_fromQueue hsource hd hlink ht).resolve_left List.not_mem_nil

end Reach

end Hierarchy
end UILayout
