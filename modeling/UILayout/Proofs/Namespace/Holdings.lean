import UILayout.Proofs.Namespace.History
import UILayout.Proofs.Namespace.Listing
import UILayout.Proofs.Namespace.Path

/-!
# UILayout.Proofs.Namespace.Holdings

What a namespace holds from each document, and that an update of one document changes nothing that is
held from the others.

* `SameIn.holds_iff`: what an edit leaves alone is held as before, under the same path.
* `Withdrawn.not_holds`: nothing is left of a document that has been taken back.
* `Settled.sameIn`: an update leaves all documents alone but its own.
-/

namespace UILayout
namespace Namespace

open Schema Markup

/-- A namespace holds something. -/
def Holds (n : Namespace) : Item → Prop
  | .path path => ∃ id d, n.live? id = some d ∧ n.path? id = some path
  | .site path site => ∃ id d, n.live? id = some d ∧ n.path? id = some path ∧ site ∈ d.sites
  | .constant name c => Lists n.constants name c
  | .handle name path site => ∃ h, Lists n.handles name h ∧ h.site = site ∧ n.path? h.desc = some path
  | .scope element path => ∃ id, n.scope? element = some id ∧ n.path? id = some path
  | .declared element path => ∃ id, n.declared? element = some id ∧ n.path? id = some path

/-! ## Documents that an edit is not about -/

/-- A site is listed at a desc. -/
def SiteAt (n : Namespace) (id : DescId) (site : Site) : Prop :=
  ∃ d, n.descs[id]? = some d ∧ site ∈ d.sites

/-- Two namespaces hold the same from one document. -/
structure SameIn (document : DocumentId) (n n' : Namespace) : Prop where
  keeps : n.Keeps n'
  sites : ∀ {id : DescId} {site : Site}, site.element.document = document →
    (n'.SiteAt id site ↔ n.SiteAt id site)
  constants : ∀ {name : String} {c : Constant}, c.site.document = document →
    (Lists n'.constants name c ↔ Lists n.constants name c)
  handles : ∀ {name : String} {h : Handle}, h.site.document = document →
    (Lists n'.handles name h ↔ Lists n.handles name h)
  places : ∀ {r : ElementRef}, r.document = document → n'.place? r = n.place? r

namespace SameIn

variable {document : DocumentId} {n n' n'' : Namespace}

theorem refl (document : DocumentId) (n : Namespace) : SameIn document n n :=
  ⟨.rfl, fun _ => .rfl, fun _ => .rfl, fun _ => .rfl, fun _ => rfl⟩

theorem trans (h : SameIn document n n') (h' : SameIn document n' n'') : SameIn document n n'' :=
  ⟨h.keeps.trans h'.keeps, fun hd => (h'.sites hd).trans (h.sites hd),
    fun hd => (h'.constants hd).trans (h.constants hd),
    fun hd => (h'.handles hd).trans (h.handles hd), fun hd => (h'.places hd).trans (h.places hd)⟩

theorem hasSite (h : SameIn document n n') {id : DescId} :
    n'.HasSite id document ↔ n.HasSite id document := by
  constructor
  · rintro ⟨d, hd, site, hs, rfl⟩
    obtain ⟨d', hd', hs'⟩ := (h.sites rfl).1 ⟨d, hd, hs⟩
    exact ⟨d', hd', site, hs', rfl⟩
  · rintro ⟨d, hd, site, hs, rfl⟩
    obtain ⟨d', hd', hs'⟩ := (h.sites rfl).2 ⟨d, hd, hs⟩
    exact ⟨d', hd', site, hs', rfl⟩

/-- What the document refers to is in both trees, under the same path. -/
theorem path?_eq (h : SameIn document n n') {filed filed' : DocumentId → Option Contribution}
    (hn : Sound n filed) (hn' : Sound n' filed') {id : DescId} (hs : n.HasSite id document) :
    n'.path? id = n.path? id := by
  obtain ⟨d, hd⟩ := hs.live hn.anchored
  obtain ⟨d', hd'⟩ := (h.hasSite.2 hs).live hn'.anchored
  exact hn.tree.path?_keeps hn'.tree h.keeps hd hd'

end SameIn

theorem SiteAt.hasSite {n : Namespace} {id : DescId} {site : Site} (h : n.SiteAt id site) :
    n.HasSite id site.element.document := by
  obtain ⟨d, hd, hs⟩ := h
  exact ⟨d, hd, site, hs, rfl⟩

theorem holds_site_iff {n : Namespace} {path : List String} {site : Site} :
    n.Holds (.site path site) ↔ ∃ id, n.path? id = some path ∧ n.SiteAt id site := by
  constructor
  · rintro ⟨id, d, hd, hp, hs⟩
    exact ⟨id, hp, d, (live?_eq_some_iff.1 hd).1, hs⟩
  · rintro ⟨id, hp, d, hd, hs⟩
    obtain ⟨d', hd'⟩ := live_of_path? hp
    rw [(live?_eq_some_iff.1 hd').1] at hd
    cases hd
    exact ⟨id, d, hd', hp, hs⟩

theorem SameIn.holds_iff {document : DocumentId} {n n' : Namespace} (h : SameIn document n n')
    (hn : Sound n n.documents.get?) (hn' : Sound n' n'.documents.get?) {item : Item}
    (hi : item.document? = some document) : n'.Holds item ↔ n.Holds item := by
  cases item with
  | path path => cases hi
  | site path site =>
    cases hi
    rw [holds_site_iff, holds_site_iff]
    refine exists_congr fun id => ?_
    rw [h.sites rfl]
    refine and_congr_left fun hs => ?_
    rw [h.path?_eq hn hn' hs.hasSite]
  | constant name c =>
    cases hi
    exact h.constants rfl
  | handle name path site =>
    cases hi
    refine exists_congr fun x => ?_
    constructor
    · rintro ⟨hl, rfl, hp⟩
      have hl' := (h.handles rfl).1 hl
      exact ⟨hl', rfl, by rw [← h.path?_eq hn hn' (hn.anchored.handle hl'), hp]⟩
    · rintro ⟨hl, rfl, hp⟩
      exact ⟨(h.handles rfl).2 hl, rfl,
        by rw [h.path?_eq hn hn' (hn.anchored.handle hl), hp]⟩
  | scope element path =>
    cases hi
    refine exists_congr fun id => ?_
    rw [scope?, h.places rfl]
    refine and_congr_right fun hscope => ?_
    obtain ⟨pl, hpl, rfl⟩ := Option.map_eq_some_iff.1 hscope
    rw [h.path?_eq hn hn' (hn.hasSite_place hpl).1]
  | declared element path =>
    cases hi
    refine exists_congr fun id => ?_
    rw [declared?, h.places rfl]
    refine and_congr_right fun hdecl => ?_
    rw [h.path?_eq hn hn' (hn.hasSite_declared hdecl)]

theorem Withdrawn.sameIn {n : Namespace} {document other : DocumentId} {e : Edit}
    (h : Withdrawn n document e) (hn : Settled n) (hne : other ≠ document) :
    SameIn other n e.names := by
  refine ⟨h.keeps, ?_, ?_, ?_, ?_⟩
  · rintro id site rfl
    constructor
    · rintro ⟨d', hd', hs⟩
      obtain ⟨d, hd, rfl⟩ := h.cases hd'
      rw [Desc.sites_without] at hs
      exact ⟨d, hd, (List.mem_filter.1 hs).1⟩
    · rintro ⟨d, hd, hs⟩
      refine ⟨_, by rw [h.descs, hd, Option.map_some], ?_⟩
      rw [Desc.sites_without]
      exact List.mem_filter.2 ⟨hs, by simpa using hne⟩
  · rintro name c rfl
    rw [h.constants, lists_dropFrom hn.constants.distinct]
    exact and_iff_left hne
  · rintro name x rfl
    rw [h.handles, lists_dropFrom hn.handles.distinct]
    exact and_iff_left hne
  · rintro r rfl
    rw [place?, place?, h.documents, OrderedMap.get?_erase, if_neg hne]

/-- Nothing is left of a document that has been taken back. -/
theorem Withdrawn.not_holds {n : Namespace} {document : DocumentId} {e : Edit}
    (h : Withdrawn n document e) (hn : Settled n) {item : Item}
    (hi : item.document? = some document) : ¬ e.names.Holds item := by
  have hplace : ∀ {r : ElementRef}, r.document = document → e.names.place? r = none := by
    rintro r rfl
    rw [place?, h.documents, OrderedMap.get?_erase, if_pos rfl, Option.bind_none]
  cases item with
  | path path => cases hi
  | site path site =>
    rintro ⟨id, d, hd, -, hs⟩
    exact h.document_ne (live?_eq_some_iff.1 hd).1 hs (Option.some.inj hi)
  | constant name c =>
    intro hc
    rw [Holds, h.constants, lists_dropFrom hn.constants.distinct] at hc
    exact hc.2 (Option.some.inj hi)
  | handle name path site =>
    rintro ⟨x, hx, rfl, -⟩
    rw [h.handles, lists_dropFrom hn.handles.distinct] at hx
    exact hx.2 (Option.some.inj hi)
  | scope element path =>
    rintro ⟨id, hid, -⟩
    rw [scope?, hplace (Option.some.inj hi)] at hid
    cases hid
  | declared element path =>
    rintro ⟨id, hid, -⟩
    rw [declared?, hplace (Option.some.inj hi)] at hid
    cases hid

/-- Putting a document in leaves all others alone. -/
theorem Underway.sameIn {n : Namespace} {doc : Document} {st st' : Entering} (h : Underway n doc st)
    (hs : Entering.Step doc st st') {other : DocumentId} (hne : other ≠ doc.id) :
    SameIn other st.edit.names st'.edit.names := by
  cases hs with
  | @declare id e scope kind _ name allowed =>
    have hg := h.sound.grown allowed id e name
    refine ⟨hg.keeps, ?_, ?_, ?_, ?_⟩
    · rintro j site rfl
      constructor
      · rintro ⟨d', hd', hs⟩
        rcases hg.only hd' hs with hold | ⟨-, rfl⟩
        · exact hold
        · exact absurd rfl hne
      · rintro ⟨d, hd, hs⟩
        obtain ⟨d', hd', -⟩ := hg.keeps hd
        exact ⟨d', hd', hg.more hd hd' hs⟩
    · intro x c _
      rw [hg.constants]
    · intro x y _
      rw [hg.handles]
    · intro r _
      rw [place?, place?, hg.documents]
  | @constant parent id pl c _ hc =>
    refine ⟨fun j d hd => ⟨d, hd, .rfl⟩, fun _ => .rfl, ?_, fun _ => .rfl, fun _ => rfl⟩
    rintro name x rfl
    refine (lists_alter _ c.name name c x).trans (or_iff_left ?_)
    rintro ⟨-, rfl⟩
    exact hne (by rw [hc]; rfl)
  | @handle parent id pl _ name =>
    refine ⟨fun j d hd => ⟨d, hd, .rfl⟩, fun _ => .rfl, fun _ => .rfl, ?_, fun _ => rfl⟩
    rintro other x rfl
    refine (lists_alter _ name other _ x).trans (or_iff_left ?_)
    rintro ⟨-, rfl⟩
    exact hne rfl
  | other => exact .refl _ _

theorem Edit.Unlinking.sameIn {e e' : Edit} {id parent : DescId} {d : Desc}
    (hu : Edit.Unlinking e e' id d parent) (document : DocumentId) :
    SameIn document e.names e'.names := by
  refine ⟨hu.keeps, ?_, ?_, ?_, ?_⟩
  · intro j site _
    have hsites : (e'.names.descs[j]?).map (·.sites) = (e.names.descs[j]?).map (·.sites) := by
      rw [hu.descs]
      split
      · rw [Option.map_map]
        rfl
      split
      · rw [Option.map_map]
        rfl
      · rfl
    constructor
    · rintro ⟨x', hx', hs⟩
      rw [hx', Option.map_some] at hsites
      obtain ⟨x, hx, heq⟩ := Option.map_eq_some_iff.1 hsites.symm
      exact ⟨x, hx, by rw [heq]; exact hs⟩
    · rintro ⟨x, hx, hs⟩
      rw [hx, Option.map_some] at hsites
      obtain ⟨x', hx', heq⟩ := Option.map_eq_some_iff.1 hsites
      exact ⟨x', hx', by rw [heq]; exact hs⟩
  · intro name c _
    rw [hu.constants]
  · intro name x _
    rw [hu.handles]
  · intro r _
    rw [place?, place?, hu.documents]

theorem Unlinks.sameIn {e e' : Edit} (h : Unlinks e e') (hs : Sound e.names e.names.documents.get?)
    (document : DocumentId) : SameIn document e.names e'.names := by
  induction h with
  | refl => exact .refl _ _
  | step hd hl hb hp hu _ ih =>
    exact (hu.sameIn document).trans (ih (hs.unlink hd hl hb hp hu))

theorem SameIn.file {n : Namespace} {doc : Document} {st : Entering} {other : DocumentId}
    (h : SameIn other n st.edit.names) (hne : other ≠ doc.id) :
    SameIn other n (Edit.file doc st).names := by
  refine ⟨h.keeps, h.sites, h.constants, h.handles, ?_⟩
  rintro r rfl
  rw [← h.places rfl, place?, place?, Edit.file, OrderedMap.get?_put, if_neg hne]

theorem Settled.sameIn {n : Namespace} (hn : Settled n) (u : Update) {other : DocumentId}
    (hne : other ≠ u.document) : SameIn other n (u.edit n).names := by
  have hw := (withdrawn_spec hn.anchored u.document).sameIn hn hne
  refine SameIn.trans ?_ ((hn.update u).1.sameIn (hn.entered u).1 other)
  cases u with
  | remove document => exact hw
  | sync s doc =>
    rcases Edit.enter_cases s doc (n.withdrawn doc.id) with ⟨-, heq⟩ | ⟨root, el, -, hel, -, heq⟩
    · rw [Update.entered, heq]
      exact hw
    · rw [Update.entered, heq]
      obtain ⟨-, h⟩ := hn.entering s hel (P := fun st => SameIn other n st.edit.names) hw
        fun st st' hu h hs => h.trans (hu.sameIn hs hne)
      exact h.file hne

end Namespace
end UILayout
