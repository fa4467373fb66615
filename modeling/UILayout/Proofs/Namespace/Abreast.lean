import UILayout.Proofs.Namespace.Holdings

/-!
# UILayout.Proofs.Namespace.Abreast

A document that is put into a namespace and listed on its own at the same time. `Abreast` says what one
element does to both, so that what relates the two is proved from five cases.

* `Tracks`: what has been put in is what has been listed.
* `Tracks.step`: every element takes one step abreast.
* `Settled.abreast`: what every step keeps holds of the whole document.
-/

namespace UILayout
namespace Namespace

open Schema Markup

/-- What a document has put in so far is what has been listed. -/
structure Tracks (doc : Document) (st : Entering) (l : Listing) : Prop where
  within : l.Within doc
  size : l.spots.size = st.here.places.size
  spots : ∀ id : ElementId, l.spot? id = (st.here.place? id).bind fun pl =>
    (st.edit.names.path? pl.scope).map (⟨·, pl.declares?.isSome⟩)
  sites : ∀ {path : List String} {site : Site}, (path, site) ∈ l.sites ↔
    ∃ id, st.edit.names.path? id = some path ∧ st.edit.names.SiteAt id site ∧
      site.element.document = doc.id
  constants : ∀ {c : Constant}, c ∈ l.constants ↔
    Lists st.edit.names.constants c.name c ∧ c.site.document = doc.id
  handles : ∀ {name : String} {path : List String} {r : ElementRef}, (name, path, r) ∈ l.handles ↔
    ∃ h, Lists st.edit.names.handles name h ∧ h.site = r ∧
      st.edit.names.path? h.desc = some path ∧ r.document = doc.id

section

variable {n : Namespace} {doc : Document} {st : Entering} {l : Listing}

theorem Tracks.start (hn : Settled n) (doc : Document) :
    Tracks doc ⟨n.withdrawn doc.id, .start doc⟩ (.start doc) := by
  have hw := withdrawn_spec hn.anchored doc.id
  refine ⟨.start doc, by simp [Listing.start, Contribution.start], ?_, ⟨nofun, ?_⟩, ⟨nofun, ?_⟩,
    ⟨nofun, ?_⟩⟩
  · intro id
    simp
  · rintro ⟨id, hp, hs, hdoc⟩
    have hholds := holds_site_iff.2 ⟨id, hp, hs⟩
    exact absurd hholds (hw.not_holds hn (congrArg some hdoc))
  · rename_i c
    rintro ⟨hlists, hdoc⟩
    have hholds : (n.withdrawn doc.id).names.Holds (.constant c.name c) := hlists
    exact absurd hholds (hw.not_holds hn (congrArg some hdoc))
  · rename_i name path r
    rintro ⟨x, hlists, hx, hp, hdoc⟩
    have hholds : (n.withdrawn doc.id).names.Holds (.handle name path r) := ⟨x, hlists, hx, hp⟩
    exact absurd hholds (hw.not_holds hn (congrArg some hdoc))

/-- An element that declares nothing stands where the elements around it do. -/
theorem Tracks.spots_place (h : Tracks doc st l) (id : ElementId) {pl : Place} {path : List String}
    (hpath : st.edit.names.path? pl.scope = some path) (j : ElementId) :
    (l.put id ⟨path, false⟩).spot? j = ((st.place id ⟨pl.scope, none⟩).here.place? j).bind fun pl =>
      (st.edit.names.path? pl.scope).map (⟨·, pl.declares?.isSome⟩) := by
  rw [Listing.spot?_put, Entering.place?_place, h.size]
  split
  · simp [hpath]
  · exact h.spots j

section Declare

variable {scope : DescId} {kind : DescKind} {path : List String} {id : ElementId} {e : Element}

/-- A declaration keeps the paths of all that is there, and gives the desc it goes to one more name
than `scope` has. -/
theorem Underway.path?_enter (hu : Underway n doc st) (ha : st.Allows scope kind)
    (hpath : st.edit.names.path? scope = some path) (id : ElementId) (e : Element)
    (he : doc.element? id = some e) (name : String) :
    (∀ {j : DescId} {d : Desc}, st.edit.names.live? j = some d →
      (st.enter doc id e scope name kind).edit.names.path? j = st.edit.names.path? j) ∧
    (st.enter doc id e scope name kind).edit.names.path? (st.edit.childOf scope name kind) =
      some (path ++ [name]) := by
  have hg := hu.sound.grown ha id e name
  have tree := hu.sound.tree
  have tree' := (hu.step (.declare he name ha)).sound.tree
  have keep : ∀ {j : DescId} {d : Desc}, st.edit.names.live? j = some d →
      (st.enter doc id e scope name kind).edit.names.path? j = st.edit.names.path? j := by
    intro j d hd
    obtain ⟨hj, hl⟩ := live?_eq_some_iff.1 hd
    obtain ⟨d', hd', -⟩ := hg.keeps hj
    exact tree.path?_keeps tree' hg.keeps hd
      (live?_eq_some_iff.2 ⟨hd', by rw [hg.live hj hd', hl]⟩)
  refine ⟨keep, ?_⟩
  obtain ⟨d', hd', hl, hpar, hname, -⟩ := hg.declared
  obtain ⟨pd, hpd, hb⟩ := tree'.below_of_parent? hd' hpar
  obtain ⟨p, hp⟩ := live_of_path? hpath
  rw [path?_below (live?_eq_some_iff.2 ⟨hd', hl⟩) hb, keep hp, hpath, Option.map_some, hname]

theorem Tracks.declare (h : Tracks doc st l) (hu : Underway n doc st) (ha : st.Allows scope kind)
    (hpath : st.edit.names.path? scope = some path) (he : doc.element? id = some e) (name : String) :
    Tracks doc (st.enter doc id e scope name kind) (l.declare doc id e (path ++ [name])) := by
  have hg := hu.sound.grown ha id e name
  obtain ⟨keep, hself⟩ := hu.path?_enter ha hpath id e he name
  have keepSite : ∀ {j : DescId} {X : DocumentId}, st.edit.names.HasSite j X →
      (st.enter doc id e scope name kind).edit.names.path? j = st.edit.names.path? j := by
    intro j X hs
    obtain ⟨d, hd⟩ := hs.live hu.sound.anchored
    exact keep hd
  have hwithin := h.within.declare he (path ++ [name])
  -- of the declarations of one element there is only one, so it is the new one
  have hnew : (st.enter doc id e scope name kind).edit.names.SiteAt
      (st.edit.childOf scope name kind) (Entering.siteOf doc id e) := by
    obtain ⟨d', hd', -, -, -, s, hs, heq⟩ := hg.declared
    refine ⟨d', hd', ?_⟩
    rcases hg.only hd' hs with ⟨d, hd, hsd⟩ | ⟨-, rfl⟩
    · have hlive := live?_eq_some_iff.2 ⟨hd, hu.sound.anchored.live hd (List.ne_nil_of_mem hsd)⟩
      obtain ⟨p, hp⟩ := hu.sound.tree.exists_path hlive
      have hmem := h.sites.2 ⟨_, hp, ⟨d, hd, hsd⟩, by rw [heq]; rfl⟩
      obtain ⟨x, el, hel, rfl⟩ := h.within.sites _ hmem
      have hx : x = id := congrArg ElementRef.element heq
      subst hx
      rw [he] at hel
      cases hel
      exact hs
    · exact hs
  refine ⟨hwithin, ?_, ?_, ?_, ?_, ?_⟩
  · simpa [Listing.declare, Listing.put, Entering.enter, Entering.place] using h.size
  · intro j
    rw [Listing.declare, Listing.spot?_put, Entering.place?_enter]
    have hsize : l.spots.size = st.here.places.size := h.size
    simp only [hsize]
    split
    · simp [hself]
    · refine (h.spots j).trans ?_
      cases hj : st.here.place? j with
      | none => rfl
      | some pl =>
        have hsite := (hu.sound.anchored.place (Function.update_self ..) hj).1
        rw [Option.bind_some, Option.bind_some, keepSite hsite]
  · intro p site
    refine List.mem_append.trans ?_
    rw [h.sites, List.mem_singleton]
    constructor
    · rintro (⟨j, hp, hs, hdoc⟩ | heq)
      · obtain ⟨d, hd, hsd⟩ := hs
        obtain ⟨d', hd', -⟩ := hg.keeps hd
        exact ⟨j, by rw [keepSite (SiteAt.hasSite ⟨d, hd, hsd⟩), hp], ⟨d', hd', hg.more hd hd' hsd⟩,
          hdoc⟩
      · cases heq
        exact ⟨_, hself, hnew, rfl⟩
    · rintro ⟨j, hp, ⟨d', hd', hs⟩, hdoc⟩
      rcases hg.only hd' hs with hold | ⟨rfl, rfl⟩
      · exact .inl ⟨j, by rw [← keepSite (SiteAt.hasSite hold), hp], hold, hdoc⟩
      · rw [hself] at hp
        cases hp
        exact .inr rfl
  · intro c
    rw [hg.constants]
    exact h.constants
  · intro x p r
    rw [hg.handles]
    refine h.handles.trans (exists_congr fun y => and_congr_right fun hl => ?_)
    rw [keepSite (hu.sound.anchored.handle hl)]

end Declare

/-- An element that has been put in has been listed, at the path of the desc around it. -/
theorem Tracks.spot (h : Tracks doc st l) (hu : Underway n doc st) {id : ElementId} {pl : Place}
    (hpl : st.here.place? id = some pl) : ∃ path, st.edit.names.path? pl.scope = some path ∧
      l.spot? id = some ⟨path, pl.declares?.isSome⟩ := by
  obtain ⟨d, hd⟩ := (hu.sound.anchored.place (Function.update_self ..) hpl).1.live hu.sound.anchored
  obtain ⟨path, hpath⟩ := hu.sound.tree.exists_path hd
  exact ⟨path, hpath, by rw [h.spots, hpl, Option.bind_some, hpath, Option.map_some]⟩

theorem Tracks.size_place (h : Tracks doc st l) (id : ElementId) (spot : Spot) (p : Place) :
    (l.put id spot).spots.size = (st.place id p).here.places.size := by
  simpa [Listing.put, Entering.place] using h.size

section Register

variable {id : ElementId} {pl : Place} {path : List String}

theorem Tracks.constant (h : Tracks doc st l) (hu : Underway n doc st)
    (hpath : st.edit.names.path? pl.scope = some path) {c : Constant} (hc : c.site.document = doc.id) :
    Tracks doc ({ st with edit := st.edit.addConstant c }.place id ⟨pl.scope, none⟩)
      (l.constant id c path) := by
  have hpaths := hu.sound.tree.path?_of_descs (m := (st.edit.addConstant c).names) rfl
  refine ⟨⟨h.within.sites, ?_, h.within.handles⟩, h.size_place id _ _, ?_, ?_, ?_, ?_⟩
  · intro x hx
    rcases List.mem_append.1 hx with hx | hx
    · exact h.within.constants x hx
    · rw [List.mem_singleton.1 hx, hc]
  · intro j
    simp only [Entering.edit_place, hpaths]
    exact h.spots_place id hpath j
  · intro p site
    simp only [Entering.edit_place, hpaths]
    exact h.sites
  · intro x
    refine List.mem_append.trans ?_
    rw [h.constants, List.mem_singleton]
    refine Iff.trans ?_ (and_congr_left' (lists_alter _ c.name x.name c x)).symm
    constructor
    · rintro (⟨hx, hdoc⟩ | rfl)
      · exact ⟨.inl hx, hdoc⟩
      · exact ⟨.inr ⟨rfl, rfl⟩, hc⟩
    · rintro ⟨hx | ⟨-, rfl⟩, hdoc⟩
      · exact .inl ⟨hx, hdoc⟩
      · exact .inr rfl
  · intro x p r
    simp only [Entering.edit_place, hpaths]
    exact h.handles

theorem Tracks.handle (h : Tracks doc st l) (hu : Underway n doc st)
    (hpath : st.edit.names.path? pl.scope = some path) (name : String) :
    Tracks doc
      ({ st with edit := st.edit.addHandle ⟨name, pl.scope, doc.ref id⟩ }.place id ⟨pl.scope, none⟩)
      (l.handle doc id name path) := by
  have hpaths := hu.sound.tree.path?_of_descs
    (m := (st.edit.addHandle ⟨name, pl.scope, doc.ref id⟩).names) rfl
  refine ⟨⟨h.within.sites, h.within.constants, ?_⟩, h.size_place id _ _, ?_, ?_, h.constants, ?_⟩
  · intro x hx
    rcases List.mem_append.1 hx with hx | hx
    · exact h.within.handles x hx
    · rw [List.mem_singleton.1 hx]
      rfl
  · intro j
    simp only [Entering.edit_place, hpaths]
    exact h.spots_place id hpath j
  · intro p site
    simp only [Entering.edit_place, hpaths]
    exact h.sites
  · intro x p r
    simp only [Entering.edit_place, hpaths]
    refine List.mem_append.trans ?_
    rw [h.handles, List.mem_singleton]
    constructor
    · rintro (⟨y, hy, hr, hp, hdoc⟩ | heq)
      · exact ⟨y, (lists_alter _ name x _ y).2 (.inl hy), hr, hp, hdoc⟩
      · cases heq
        exact ⟨_, (lists_alter _ name name _ _).2 (.inr ⟨rfl, rfl⟩), rfl, hpath, rfl⟩
    · rintro ⟨y, hy, hr, hp, hdoc⟩
      rcases (lists_alter _ name x _ y).1 hy with hy | ⟨rfl, rfl⟩
      · exact .inl ⟨y, hy, hr, hp, hdoc⟩
      · rw [hpath] at hp
        cases hp
        cases hr
        exact .inr rfl

end Register

end

/-! ## Abreast -/

/-- What one element does to the namespace and to the listing. -/
inductive Abreast (s : Schema) (doc : Document) (st : Entering) (l : Listing) :
    Entering → Listing → Prop where
  | skip : Abreast s doc st l st l
  | declare {id : ElementId} {e : Element} {scope : DescId} {kind : DescKind} {path : List String}
      (he : doc.element? id = some e) (name : String) (allowed : st.Allows scope kind)
      (hpath : st.edit.names.path? scope = some path)
      (hkind : path ≠ [] → ∃ b, e.binding? = some b ∧
        DescKind.ofSlot? (s.slotKind b.slot) = some kind) :
      Abreast s doc st l (st.enter doc id e scope name kind)
        (l.declare doc id e (path ++ [name]))
  | constant {parent id : ElementId} {pl : Place} {c : Constant} {path : List String}
      (hpl : st.here.place? parent = some pl) (hpath : st.edit.names.path? pl.scope = some path)
      (hc : c.site = doc.ref id) :
      Abreast s doc st l ({ st with edit := st.edit.addConstant c }.place id ⟨pl.scope, none⟩)
        (l.constant id c path)
  | handle {parent id : ElementId} {pl : Place} {path : List String}
      (hpl : st.here.place? parent = some pl) (hpath : st.edit.names.path? pl.scope = some path)
      (name : String) :
      Abreast s doc st l
        ({ st with edit := st.edit.addHandle ⟨name, pl.scope, doc.ref id⟩ }.place id ⟨pl.scope, none⟩)
        (l.handle doc id name path)
  | other {parent id : ElementId} {pl : Place} {path : List String}
      (hpl : st.here.place? parent = some pl) (hpath : st.edit.names.path? pl.scope = some path) :
      Abreast s doc st l (st.place id ⟨pl.scope, none⟩) (l.put id ⟨path, false⟩)

section

variable {n : Namespace} {s : Schema} {doc : Document} {st st' : Entering} {l l' : Listing}

theorem Tracks.step (h : Tracks doc st l) (hu : Underway n doc st) (s : Schema) (id : ElementId) :
    Abreast s doc st l (st.step s doc id) (l.step s doc id) := by
  unfold Entering.step Listing.step
  cases he : doc.element? id with
  | none => exact .skip
  | some e =>
    cases hb : e.binding? with
    | none =>
      simp only [hb]
      exact .skip
    | some b =>
      cases hp : e.parent? with
      | none =>
        simp only [hb, hp, Option.bind_none]
        exact .skip
      | some parent =>
        cases hpl : st.here.place? parent with
        | none =>
          have hspot : l.spot? parent = none := by rw [h.spots, hpl, Option.bind_none]
          simp only [hb, hp, hpl, hspot, Option.bind_some]
          exact .skip
        | some pl =>
          obtain ⟨path, hpath, hspot⟩ := h.spot hu hpl
          simp only [hb, hp, hpl, hspot, Option.bind_some]
          unfold Entering.add Listing.add
          cases hrole : Role.ofElement s e b with
          | desc name kind =>
            obtain ⟨hk, hf⟩ := Role.kind_of_desc hrole
            exact .declare he name (.inr ⟨⟨parent, pl, hpl, rfl⟩, hk, hf⟩) hpath fun _ =>
              ⟨b, hb, Role.ofSlot?_of_desc hrole⟩
          | constant name value => exact .constant hpl hpath rfl
          | handle name => exact .handle hpl hpath name
          | other => exact .other hpl hpath

theorem Underway.abreast (hu : Underway n doc st) (ha : Abreast s doc st l st' l') :
    Underway n doc st' := by
  cases ha with
  | skip => exact hu
  | declare he name allowed _ _ => exact hu.step (.declare he name allowed)
  | constant hpl _ hc => exact hu.step (.constant hpl hc)
  | handle hpl _ name => exact hu.step (.handle hpl name)
  | other hpl _ => exact hu.step (.other hpl)

theorem Tracks.abreast (h : Tracks doc st l) (hu : Underway n doc st)
    (ha : Abreast s doc st l st' l') : Tracks doc st' l' := by
  cases ha with
  | skip => exact h
  | declare he name allowed hpath _ => exact h.declare hu allowed hpath he name
  | constant hpl hpath hc => exact h.constant hu hpath (by rw [hc]; rfl)
  | handle hpl hpath name => exact h.handle hu hpath name
  | @other parent id pl path hpl hpath =>
    exact ⟨⟨h.within.sites, h.within.constants, h.within.handles⟩, h.size_place id _ _,
      h.spots_place id hpath, h.sites, h.constants, h.handles⟩

/-- What holds when a document has been taken back, and is kept by every step abreast, holds when the
document has been put in and listed. -/
theorem Settled.abreast (hn : Settled n) (s : Schema) {root : ElementId} {el : Element}
    (hel : doc.element? root = some el) {P : Entering → Listing → Prop}
    (start : P ⟨n.withdrawn doc.id, .start doc⟩ (.start doc))
    (step : ∀ {st : Entering} {l : Listing} {st' : Entering} {l' : Listing}, Underway n doc st →
      Tracks doc st l → P st l → Abreast s doc st l st' l' → P st' l') :
    Underway n doc ((n.withdrawn doc.id).entering s doc root el) ∧
      Tracks doc ((n.withdrawn doc.id).entering s doc root el) (listingFrom s doc root el) ∧
      P ((n.withdrawn doc.id).entering s doc root el) (listingFrom s doc root el) := by
  have run : ∀ (elements : List ElementId) {st : Entering} {l : Listing}, Underway n doc st →
      Tracks doc st l → P st l → Underway n doc (elements.foldl (Entering.step s doc) st) ∧
        Tracks doc (elements.foldl (Entering.step s doc) st) (elements.foldl (Listing.step s doc) l) ∧
        P (elements.foldl (Entering.step s doc) st) (elements.foldl (Listing.step s doc) l) := by
    intro elements
    induction elements with
    | nil => exact fun hu ht hP => ⟨hu, ht, hP⟩
    | cons id rest ih =>
      intro st l hu ht hP
      have ha := ht.step hu s id
      exact ih (hu.abreast ha) (ht.abreast hu ha) (step hu ht hP ha)
  have hu := hn.underway_start doc
  have ht := Tracks.start hn doc
  have hroot := hu.sound.tree.path?_root
  have hfile : Entering.Allows ⟨n.withdrawn doc.id, .start doc⟩ Namespace.root .file := .inl ⟨rfl, rfl⟩
  have ha : Abreast s doc ⟨n.withdrawn doc.id, .start doc⟩ (.start doc) _ _ :=
    .declare hel doc.name hfile hroot fun hne => absurd rfl hne
  exact run _ (hu.abreast ha) (ht.abreast hu ha) (step hu ht start ha)

end

end Namespace
end UILayout
