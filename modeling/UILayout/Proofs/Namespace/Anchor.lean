import Mathlib.Logic.Function.Basic
import UILayout.Proofs.Namespace.Register
import UILayout.Proofs.Namespace.Tree

/-!
# UILayout.Proofs.Namespace.Anchor

Why things that refer to a desc find it in the tree: the document that refers to it also declares it.
`Anchored` says so for descs below other descs, for handles and for the places of elements, and that
a document which declares a desc holds it. A document on its way into the namespace is not filed yet,
so what the documents have put in is given apart.

* `grown_declareChild`: what a declaration adds.
* `Anchored.grow`, `Anchored.unlink`: steps that keep all anchored.
-/

namespace UILayout
namespace Namespace

open Schema Markup

/-- A desc has a declaration in a document. -/
def HasSite (n : Namespace) (id : DescId) (document : DocumentId) : Prop :=
  ∃ d, n.descs[id]? = some d ∧ ∃ site ∈ d.sites, site.element.document = document

structure Anchored (n : Namespace) (filed : DocumentId → Option Contribution) : Prop where
  live : ∀ {id : DescId} {d : Desc}, n.descs[id]? = some d → d.sites ≠ [] → d.live = true
  root : ∀ {d : Desc}, n.descs[Namespace.root]? = some d → d.sites = []
  parent : ∀ {id p : DescId} {d : Desc} {site : Site}, n.descs[id]? = some d → site ∈ d.sites →
    d.parent? = some p → p ≠ Namespace.root → n.HasSite p site.element.document
  handle : ∀ {name : String} {h : Handle}, Lists n.handles name h → n.HasSite h.desc h.site.document
  place : ∀ {document : DocumentId} {c : Contribution} {id : ElementId} {pl : Place},
    filed document = some c → c.place? id = some pl →
    n.HasSite pl.scope document ∧ (pl.declares? = none ∨ pl.declares? = some pl.scope)
  held : ∀ {id : DescId} {d : Desc} {site : Site}, n.descs[id]? = some d → site ∈ d.sites →
    ∃ c, filed site.element.document = some c ∧ id ∈ c.descs

namespace HasSite

variable {n : Namespace} {id : DescId} {document : DocumentId}

theorem exists_desc (h : n.HasSite id document) : ∃ d, n.descs[id]? = some d ∧ d.sites ≠ [] := by
  obtain ⟨d, hd, site, hs, -⟩ := h
  exact ⟨d, hd, List.ne_nil_of_mem hs⟩

theorem live {filed : DocumentId → Option Contribution} (h : n.HasSite id document)
    (ha : Anchored n filed) : ∃ d, n.live? id = some d := by
  obtain ⟨d, hd, hne⟩ := h.exists_desc
  exact ⟨d, live?_eq_some_iff.2 ⟨hd, ha.live hd hne⟩⟩

end HasSite

/-! ## Adding a declaration -/

/-- `e'` is `e` with a declaration of the child `id` of `scope`. -/
structure Grown (e e' : Edit) (scope : DescId) (name : String) (id : DescId) (site : Site) : Prop
    extends Edit.Declaring e e' where
  keeps : e.names.Keeps e'.names
  live : ∀ {j : DescId} {d d' : Desc}, e.names.descs[j]? = some d → e'.names.descs[j]? = some d' →
    d'.live = d.live
  more : ∀ {j : DescId} {d d' : Desc}, e.names.descs[j]? = some d → e'.names.descs[j]? = some d' →
    d.sites ⊆ d'.sites
  only : ∀ {j : DescId} {d' : Desc} {s : Site}, e'.names.descs[j]? = some d' → s ∈ d'.sites →
    (∃ d, e.names.descs[j]? = some d ∧ s ∈ d.sites) ∨ (j = id ∧ s = site)
  declared : ∃ d', e'.names.descs[id]? = some d' ∧ d'.live = true ∧ d'.parent? = some scope ∧
    d'.name = name ∧ ∃ s ∈ d'.sites, s.element = site.element
  fresh : ∀ {j : DescId} {d' : Desc}, e'.names.descs[j]? = some d' →
    (∃ d, e.names.descs[j]? = some d) ∨ j = id
  noted : ∀ {j : DescId}, e'.changes.touches j = false →
    e.changes.touches j = false ∧ e'.names.descs[j]? = e.names.descs[j]?
  sites : ∀ {j : DescId}, j = id ∨ j ∈ e.changes.sites → j ∈ e'.changes.sites

theorem Desc.subset_sites_declared (site : Site) (revision : Nat) (d : Desc) :
    d.sites ⊆ (d.declared site revision).sites := by
  rw [Desc.sites_declared]
  split
  · exact fun _ h => h
  · exact fun _ h => List.mem_append_left _ h

theorem Desc.mem_sites_declared {site s : Site} {revision : Nat} {d : Desc}
    (h : s ∈ (d.declared site revision).sites) : s ∈ d.sites ∨ s = site := by
  rw [Desc.sites_declared] at h
  split at h
  · exact .inl h
  · simpa using h

theorem Desc.exists_site_declared (site : Site) (revision : Nat) (d : Desc) :
    ∃ s ∈ (d.declared site revision).sites, s.element = site.element := by
  rw [Desc.sites_declared]
  split
  · rename_i h
    obtain ⟨s, hs, heq⟩ := List.any_eq_true.1 h
    exact ⟨s, hs, by simpa using heq⟩
  · exact ⟨site, by simp, rfl⟩

theorem Edit.DeclaringOld.grown {e e' : Edit} {id scope : DescId} {p : Desc} {name : String}
    {site : Site} (h : DeclaringOld e e' id site) (tree : IsTree e.names)
    (hp : e.names.descs[scope]? = some p) (hc : p.children.get? name = some id) :
    Grown e e' scope name id site := by
  refine ⟨h.toDeclaring, h.keeps, ?_, ?_, ?_, ?_, ?_, ?_, (h.sites _).2⟩
  · intro j d d' hd hd'
    rw [h.descs, hd] at hd'
    split at hd' <;> cases hd'
    · exact Desc.live_declared _ _ _
    · rfl
  · intro j d d' hd hd'
    rw [h.descs, hd] at hd'
    split at hd' <;> cases hd'
    · exact Desc.subset_sites_declared _ _ _
    · exact fun _ hs => hs
  · intro j d' s hd' hs
    rw [h.descs] at hd'
    split at hd'
    · rename_i hj
      obtain ⟨d, hd, rfl⟩ := Option.map_eq_some_iff.1 hd'
      rcases Desc.mem_sites_declared hs with hs | rfl
      · exact .inl ⟨d, hd, hs⟩
      · exact .inr ⟨hj, rfl⟩
    · exact .inl ⟨d', hd', hs⟩
  · obtain ⟨d, hd, hl, hname, hpar⟩ := tree.child hp hc
    have hd' := h.descs id
    rw [if_pos rfl, hd, Option.map_some] at hd'
    have hsame := Desc.sameOrigin_declared site e.names.revision d
    exact ⟨_, hd', by simpa using hl, by rw [hsame.parent?, hpar], by rw [hsame.name, hname],
      Desc.exists_site_declared _ _ _⟩
  · intro j d' hd'
    rw [h.descs] at hd'
    split at hd'
    · exact .inr ‹_›
    · exact .inl ⟨d', hd'⟩
  · intro j hj
    rw [Changes.touches_eq_false_iff, h.children, h.removed] at hj
    obtain ⟨hc, hs, hr⟩ := hj
    rw [h.sites, not_or] at hs
    exact ⟨(Changes.touches_eq_false_iff _ _).2 ⟨hc, hs.2, hr⟩, by rw [h.descs, if_neg hs.1]⟩

theorem Edit.DeclaringNew.grown {e e' : Edit} {scope : DescId} {p : Desc} {name : String}
    {kind : DescKind} {site : Site} (h : DeclaringNew e e' scope p name kind site)
    (hp : e.names.descs[scope]? = some p) : Grown e e' scope name e.names.descs.size site := by
  refine ⟨h.toDeclaring, h.keeps hp, ?_, ?_, ?_, ?_, ?_, ?_, (h.sites _).2⟩
  · intro j d d' hd hd'
    rcases h.cases hp hd' with ⟨rfl, -⟩ | ⟨rfl, rfl⟩ | ⟨-, hj⟩
    · exact absurd (lt_size hd) (Nat.lt_irrefl _)
    · rw [hp] at hd
      cases hd
      rfl
    · rw [hd] at hj
      cases hj
      rfl
  · intro j d d' hd hd'
    rcases h.cases hp hd' with ⟨rfl, -⟩ | ⟨rfl, rfl⟩ | ⟨-, hj⟩
    · exact absurd (lt_size hd) (Nat.lt_irrefl _)
    · rw [hp] at hd
      cases hd
      exact fun _ hs => hs
    · rw [hd] at hj
      cases hj
      exact fun _ hs => hs
  · intro j d' s hd' hs
    rcases h.cases hp hd' with ⟨rfl, rfl⟩ | ⟨rfl, rfl⟩ | ⟨-, hj⟩
    · exact .inr ⟨rfl, by simpa using hs⟩
    · exact .inl ⟨p, hp, hs⟩
    · exact .inl ⟨d', hj, hs⟩
  · exact ⟨_, h.descs_new, rfl, rfl, rfl, site, by simp, rfl⟩
  · intro j d' hd'
    rcases h.cases hp hd' with ⟨rfl, -⟩ | ⟨rfl, -⟩ | ⟨-, hj⟩
    · exact .inr rfl
    · exact .inl ⟨p, hp⟩
    · exact .inl ⟨d', hj⟩
  · intro j hj
    rw [Changes.touches_eq_false_iff, h.removed] at hj
    obtain ⟨hc, hs, hr⟩ := hj
    rw [h.children, not_or] at hc
    rw [h.sites, not_or] at hs
    exact ⟨(Changes.touches_eq_false_iff _ _).2 ⟨hc.2, hs.2, hr⟩,
      by rw [h.descs, if_neg hs.1, if_neg hc.1]⟩

/-- The desc that a declaration below `scope` goes to. -/
def Edit.childOf (e : Edit) (scope : DescId) (name : String) (kind : DescKind) : DescId :=
  (e.ensureChild scope name kind).2

theorem grown_declareChild {e : Edit} {scope : DescId} {p : Desc} (tree : IsTree e.names)
    (hp : e.names.descs[scope]? = some p) (name : String) (kind : DescKind) (site : Site) :
    Grown e (e.declareChild scope name kind site) scope name (e.childOf scope name kind) site := by
  cases hc : p.children.get? name with
  | some id =>
    rw [Edit.childOf, Edit.ensureChild_of_some hp hc]
    exact (Edit.declareChild_old hp hc kind site).grown tree hp hc
  | none =>
    rw [Edit.childOf, Edit.ensureChild_of_none hp hc]
    exact (Edit.declareChild_new hp hc kind site).grown hp

theorem IsTree.declareChild {e : Edit} {scope : DescId} {p : Desc} (tree : IsTree e.names)
    (hp : e.names.descs[scope]? = some p) (hlive : p.live = true) (name : String) {kind : DescKind}
    (hkind : kind ≠ .root) (hfile : kind = .file ↔ scope = Namespace.root) (site : Site) :
    IsTree (e.declareChild scope name kind site).names := by
  cases hc : p.children.get? name with
  | some id => exact tree.declareOld (Edit.declareChild_old hp hc kind site)
  | none => exact tree.declareNew hp hlive hkind hfile hc (Edit.declareChild_new hp hc kind site)

namespace Grown

variable {e e' : Edit} {scope id : DescId} {name : String} {site : Site}

theorem hasSite (h : Grown e e' scope name id site) {j : DescId} {document : DocumentId}
    (hj : e.names.HasSite j document) : e'.names.HasSite j document := by
  obtain ⟨d, hd, s, hs, hdoc⟩ := hj
  obtain ⟨d', hd', -⟩ := h.keeps hd
  exact ⟨d', hd', s, h.more hd hd' hs, hdoc⟩

theorem hasSite_self (h : Grown e e' scope name id site) :
    e'.names.HasSite id site.element.document := by
  obtain ⟨d', hd', -, -, -, s, hs, heq⟩ := h.declared
  exact ⟨d', hd', s, hs, by rw [heq]⟩

end Grown

theorem Anchored.grow {e e' : Edit} {scope id : DescId} {name : String} {site : Site}
    {filed : DocumentId → Option Contribution} {c c' : Contribution}
    (h : Anchored e.names filed) (tree : IsTree e'.names) (hg : Grown e e' scope name id site)
    (hscope : scope ≠ Namespace.root → e.names.HasSite scope site.element.document)
    (hc : filed site.element.document = some c) (hdescs : c'.descs = c.descs ++ [id])
    (hplaces : ∀ {x : ElementId} {pl : Place}, c'.place? x = some pl →
      c.place? x = some pl ∨ pl = ⟨id, some id⟩) :
    Anchored e'.names (Function.update filed site.element.document (some c')) := by
  have hid : id ≠ Namespace.root := by
    rintro rfl
    obtain ⟨d', hd', -, hpar, -⟩ := hg.declared
    obtain ⟨r, hr, -, hnone, -⟩ := tree.root
    rw [hd'] at hr
    cases hr
    rw [hpar] at hnone
    cases hnone
  refine ⟨?_, ?_, ?_, ?_, ?_, ?_⟩
  · intro j d' hd' hne
    obtain ⟨s, hs⟩ := List.exists_mem_of_ne_nil _ hne
    rcases hg.only hd' hs with ⟨d, hd, hsd⟩ | ⟨rfl, -⟩
    · rw [hg.live hd hd']
      exact h.live hd (List.ne_nil_of_mem hsd)
    · obtain ⟨d'', hd'', hl, -⟩ := hg.declared
      rw [hd'] at hd''
      cases hd''
      exact hl
  · intro d' hd'
    by_contra hne
    obtain ⟨s, hs⟩ := List.exists_mem_of_ne_nil _ hne
    rcases hg.only hd' hs with ⟨d, hd, hsd⟩ | ⟨hroot, -⟩
    · rw [h.root hd] at hsd
      cases hsd
    · exact hid hroot.symm
  · intro j p d' s hd' hs hp hroot
    rcases hg.only hd' hs with ⟨d, hd, hsd⟩ | ⟨rfl, rfl⟩
    · obtain ⟨d'', hd'', hsame⟩ := hg.keeps hd
      rw [hd'] at hd''
      cases hd''
      exact hg.hasSite (h.parent hd hsd (by rw [← hsame.parent?, hp]) hroot)
    · obtain ⟨d'', hd'', -, hpar, -⟩ := hg.declared
      rw [hd'] at hd''
      cases hd''
      rw [hp] at hpar
      cases hpar
      exact hg.hasSite (hscope hroot)
  · intro name hd hlists
    rw [hg.handles] at hlists
    exact hg.hasSite (h.handle hlists)
  · intro document x k pl hx hpl
    by_cases hdoc : document = site.element.document
    · subst hdoc
      rw [Function.update_self] at hx
      cases hx
      rcases hplaces hpl with hold | rfl
      · obtain ⟨h1, h2⟩ := h.place hc hold
        exact ⟨hg.hasSite h1, h2⟩
      · exact ⟨hg.hasSite_self, .inr rfl⟩
    · rw [Function.update_of_ne hdoc] at hx
      obtain ⟨h1, h2⟩ := h.place hx hpl
      exact ⟨hg.hasSite h1, h2⟩
  · intro j d' s hd' hs
    rcases hg.only hd' hs with ⟨d, hd, hsd⟩ | ⟨rfl, rfl⟩
    · obtain ⟨k, hk, hmem⟩ := h.held hd hsd
      by_cases hdoc : s.element.document = site.element.document
      · rw [hdoc] at hk ⊢
        rw [hc] at hk
        cases hk
        exact ⟨c', Function.update_self .., by rw [hdescs]; exact List.mem_append_left _ hmem⟩
      · exact ⟨k, by rw [Function.update_of_ne hdoc, hk], hmem⟩
    · exact ⟨c', Function.update_self .., by rw [hdescs]; simp⟩

/-! ## Steps that leave all declarations -/

/-- Descs stay anchored when all keep their declarations and none that has any leaves the tree. -/
theorem Anchored.of_sites {n n' : Namespace} {filed filed' : DocumentId → Option Contribution}
    (h : Anchored n filed) (hk : n.Keeps n') (hs : n'.descs.size = n.descs.size)
    (hsites : ∀ {id : DescId} {d d' : Desc}, n.descs[id]? = some d → n'.descs[id]? = some d' →
      d'.sites = d.sites ∧ (d.sites ≠ [] → d.live = true → d'.live = true))
    (hhandles : ∀ {name : String} {x : Handle}, Lists n'.handles name x → Lists n.handles name x ∨
      n.HasSite x.desc x.site.document)
    (hplaces : ∀ {document : DocumentId} {c' : Contribution} {id : ElementId} {pl : Place},
      filed' document = some c' → c'.place? id = some pl →
      n.HasSite pl.scope document ∧ (pl.declares? = none ∨ pl.declares? = some pl.scope))
    (hheld : ∀ {document : DocumentId} {c : Contribution}, filed document = some c →
      ∃ c', filed' document = some c' ∧ c'.descs = c.descs) : Anchored n' filed' := by
  have old : ∀ {id : DescId} {d' : Desc}, n'.descs[id]? = some d' → ∃ d, n.descs[id]? = some d ∧
      d.SameOrigin d' ∧ d'.sites = d.sites ∧ (d.sites ≠ [] → d.live = true → d'.live = true) := by
    intro id d' hd'
    have hd := Array.getElem?_eq_getElem (hs ▸ lt_size hd' : id < n.descs.size)
    obtain ⟨d'', hd'', hsame⟩ := hk hd
    rw [hd'] at hd''
    cases hd''
    exact ⟨_, hd, hsame, hsites hd hd'⟩
  have hasSite : ∀ {id : DescId} {document : DocumentId}, n.HasSite id document →
      n'.HasSite id document := by
    rintro id document ⟨d, hd, s, hsd, hdoc⟩
    obtain ⟨d', hd', -⟩ := hk hd
    exact ⟨d', hd', s, by rw [(hsites hd hd').1]; exact hsd, hdoc⟩
  refine ⟨?_, ?_, ?_, ?_, ?_, ?_⟩
  · intro id d' hd' hne
    obtain ⟨d, hd, -, heq, hlive⟩ := old hd'
    rw [heq] at hne
    exact hlive hne (h.live hd hne)
  · intro d' hd'
    obtain ⟨d, hd, -, heq, -⟩ := old hd'
    rw [heq, h.root hd]
  · intro id p d' s hd' hsd hp hroot
    obtain ⟨d, hd, hsame, heq, -⟩ := old hd'
    exact hasSite (h.parent hd (by rw [← heq]; exact hsd) (by rw [← hsame.parent?, hp]) hroot)
  · intro name x hlists
    rcases hhandles hlists with hold | hx
    · exact hasSite (h.handle hold)
    · exact hasSite hx
  · intro document c' id pl hc hpl
    obtain ⟨h1, h2⟩ := hplaces hc hpl
    exact ⟨hasSite h1, h2⟩
  · intro id d' s hd' hsd
    obtain ⟨d, hd, -, heq, -⟩ := old hd'
    obtain ⟨c, hc, hmem⟩ := h.held hd (by rw [← heq]; exact hsd)
    obtain ⟨c', hc', hdescs⟩ := hheld hc
    exact ⟨c', hc', by rw [hdescs]; exact hmem⟩

theorem Anchored.unlink {e e' : Edit} {id parent : DescId} {d : Desc}
    (h : Anchored e.names e.names.documents.get?) (hd : e.names.descs[id]? = some d)
    (hs : d.sites = []) (hu : Edit.Unlinking e e' id d parent) :
    Anchored e'.names e'.names.documents.get? := by
  rw [hu.documents]
  refine h.of_sites hu.keeps hu.size ?_ ?_ ?_ ?_
  · intro j x x' hx hx'
    rw [hu.descs, hx] at hx'
    split at hx'
    · rename_i hj
      subst hj
      rw [hd] at hx
      cases hx
      cases hx'
      exact ⟨rfl, fun hne => absurd hs hne⟩
    split at hx'
    · cases hx'
      exact ⟨rfl, fun _ hl => hl⟩
    · cases hx'
      exact ⟨rfl, fun _ hl => hl⟩
  · intro name x hlists
    rw [hu.handles] at hlists
    exact .inl hlists
  · intro document c x pl hc hpl
    exact h.place hc hpl
  · intro document c hc
    exact ⟨c, hc, rfl⟩

end Namespace
end UILayout
