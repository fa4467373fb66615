import UILayout.Proofs.Namespace.Entering

/-!
# UILayout.Proofs.Namespace.Settled

The invariant of the namespace. `Sound` holds at every point of an edit; `Settled` adds that all descs
of the tree are declared, which fails between taking a document back and pruning.

* `Settled.withdrawn`, `Sound.step`, `Unlinks.sound`: the three parts of an edit keep the namespace
  sound.
* `unlinks_prune`: pruning lets bare descs leave, one after the other, until there are none.
-/

namespace UILayout
namespace Namespace

open Schema Markup

/-- What holds at every point of an edit, `filed` being what the documents have put in by then. -/
structure Sound (n : Namespace) (filed : DocumentId → Option Contribution) : Prop where
  tree : IsTree n
  anchored : Anchored n filed
  constants : IsRegister Constant.name n.constants
  handles : IsRegister Handle.name n.handles

/-- All descs of the tree that have no declarations are among `ids`. -/
def UndeclaredIn (n : Namespace) (ids : List DescId) : Prop :=
  ∀ ⦃id : DescId⦄ ⦃d : Desc⦄, n.descs[id]? = some d → d.live = true → id ≠ Namespace.root →
    d.sites = [] → id ∈ ids

structure Settled (n : Namespace) : Prop extends Sound n n.documents.get? where
  declared : ∀ {id : DescId} {d : Desc}, n.descs[id]? = some d → d.live = true →
    id ≠ Namespace.root → d.sites ≠ []

theorem Sound.hasSite_place {n : Namespace} (h : Sound n n.documents.get?) {r : ElementRef}
    {pl : Place} (hr : n.place? r = some pl) :
    n.HasSite pl.scope r.document ∧ (pl.declares? = none ∨ pl.declares? = some pl.scope) := by
  obtain ⟨c, hc, hplace⟩ := Option.bind_eq_some_iff.1 hr
  exact h.anchored.place hc hplace

theorem Sound.hasSite_declared {n : Namespace} (h : Sound n n.documents.get?) {r : ElementRef}
    {id : DescId} (hr : n.declared? r = some id) : n.HasSite id r.document := by
  obtain ⟨pl, hpl, hdecl⟩ := Option.bind_eq_some_iff.1 hr
  obtain ⟨hsite, hnone | hself⟩ := h.hasSite_place hpl
  · rw [hnone] at hdecl
    cases hdecl
  · rw [hself] at hdecl
    cases hdecl
    exact hsite

theorem Settled.empty : Settled Namespace.empty := by
  have nosites : ∀ {id : DescId} {d : Desc}, Namespace.empty.descs[id]? = some d → d.sites = [] := by
    intro id d hd
    rw [(descs_empty hd).2]
    rfl
  refine ⟨⟨.empty, ⟨?_, nosites, ?_, ?_, ?_, ?_⟩, .empty _, .empty _⟩, ?_⟩
  · intro id d hd hne
    exact absurd (nosites hd) hne
  · intro id p d site hd hs
    rw [nosites hd] at hs
    cases hs
  · rintro name h ⟨_, hget, -⟩
    cases hget
  · intro document c id pl hc
    cases hc
  · intro id d site hd hs
    rw [nosites hd] at hs
    cases hs
  · intro id d hd _ hne
    exact absurd (descs_empty hd).1 hne

/-! ## Taking back -/

/-- The namespace at the start of an edit, when a document has taken back what it has put in. -/
def withdrawn (n : Namespace) (document : DocumentId) : Edit :=
  n.edit.withdraw document (n.heldBy document)

theorem Anchored.mem_heldBy {n : Namespace} (h : Anchored n n.documents.get?) {id : DescId} {d : Desc}
    {site : Site} (hd : n.descs[id]? = some d) (hs : site ∈ d.sites) :
    id ∈ n.heldBy site.element.document := by
  obtain ⟨c, hc, hmem⟩ := h.held hd hs
  simpa [heldBy, hc] using hmem

theorem descs_withdrawn {n : Namespace} (h : Anchored n n.documents.get?) (document : DocumentId)
    (j : DescId) :
    (n.withdrawn document).names.descs[j]? =
      n.descs[j]?.map (·.without document (n.revision + 1)) := by
  have hfold := Edit.descs_foldl_withdrawSites document (n.heldBy document) n.edit j
  rw [withdrawn, Edit.withdraw]
  refine hfold.trans ?_
  split
  · rfl
  · rename_i hj
    show n.descs[j]? = _
    cases hd : n.descs[j]? with
    | none => rfl
    | some d =>
      rw [Option.map_some, Desc.without_eq_self]
      rw [Desc.sitesIn_eq_nil]
      rintro site hs rfl
      exact hj (h.mem_heldBy hd hs)

/-- What taking a document back comes to. -/
structure Withdrawn (n : Namespace) (document : DocumentId) (e : Edit) : Prop where
  descs : ∀ j : DescId, e.names.descs[j]? = n.descs[j]?.map (·.without document (n.revision + 1))
  size : e.names.descs.size = n.descs.size
  constants : e.names.constants = Edit.dropFrom (·.site) document n.constants
  handles : e.names.handles = Edit.dropFrom (·.site) document n.handles
  documents : e.names.documents = n.documents.erase document
  children : e.changes.children = []
  removed : e.changes.removed = []
  sites : ∀ {id : DescId} {d : Desc}, n.descs[id]? = some d → d.sitesIn document ≠ [] →
    id ∈ e.changes.sites
  noConstants : e.changes.constants = Edit.anyFrom (·.site) document n.constants
  noHandles : e.changes.handles = Edit.anyFrom (·.site) document n.handles

theorem withdrawn_spec {n : Namespace} (h : Anchored n n.documents.get?) (document : DocumentId) :
    Withdrawn n document (n.withdrawn document) := by
  have hw := Edit.withdrawing_foldl document (n.heldBy document) n.edit
  refine ⟨descs_withdrawn h document, hw.size, ?_, ?_, ?_, hw.children, hw.removed, ?_, ?_, ?_⟩
  · rw [withdrawn, Edit.withdraw, hw.constants]
    rfl
  · rw [withdrawn, Edit.withdraw, hw.handles]
    rfl
  · rw [withdrawn, Edit.withdraw, hw.documents]
    rfl
  · intro id d hd hne
    obtain ⟨site, hs⟩ := List.exists_mem_of_ne_nil _ hne
    obtain ⟨hs, hdoc⟩ := List.mem_filter.1 hs
    have hheld := h.mem_heldBy hd hs
    rw [of_decide_eq_true hdoc] at hheld
    exact Edit.mem_sites_foldl_withdrawSites document _ n.edit (.inr ⟨hheld, d, hd, hne⟩)
  · rw [withdrawn, Edit.withdraw, hw.noConstants, hw.constants]
    rfl
  · rw [withdrawn, Edit.withdraw, hw.noHandles, hw.handles]
    rfl

namespace Withdrawn

variable {n : Namespace} {document : DocumentId} {e : Edit}

theorem keeps (h : Withdrawn n document e) : n.Keeps e.names := by
  intro id d hd
  exact ⟨_, by rw [h.descs, hd, Option.map_some], Desc.sameOrigin_without _ _ _⟩

/-- A desc after taking a document back, and what it was before. -/
theorem cases (h : Withdrawn n document e) {id : DescId} {d' : Desc} (hd : e.names.descs[id]? = some d') :
    ∃ d, n.descs[id]? = some d ∧ d' = d.without document (n.revision + 1) := by
  rw [h.descs] at hd
  obtain ⟨d, hold, rfl⟩ := Option.map_eq_some_iff.1 hd
  exact ⟨d, hold, rfl⟩

theorem document_ne (h : Withdrawn n document e) {id : DescId} {d' : Desc} {site : Site}
    (hd : e.names.descs[id]? = some d') (hs : site ∈ d'.sites) : site.element.document ≠ document := by
  obtain ⟨d, -, rfl⟩ := h.cases hd
  rw [Desc.sites_without] at hs
  simpa using (List.mem_filter.1 hs).2

theorem hasSite (h : Withdrawn n document e) {id : DescId} {other : DocumentId} (hne : other ≠ document)
    (hs : n.HasSite id other) : e.names.HasSite id other := by
  obtain ⟨d, hd, site, hsite, rfl⟩ := hs
  refine ⟨_, by rw [h.descs, hd, Option.map_some], site, ?_, rfl⟩
  rw [Desc.sites_without]
  exact List.mem_filter.2 ⟨hsite, by simpa using hne⟩

theorem anchored (h : Withdrawn n document e) (hn : Anchored n n.documents.get?)
    (hc : IsRegister Handle.name n.handles) : Anchored e.names e.names.documents.get? := by
  refine ⟨?_, ?_, ?_, ?_, ?_, ?_⟩
  · intro id d' hd' hne
    obtain ⟨d, hd, rfl⟩ := h.cases hd'
    rw [Desc.live_without]
    apply hn.live hd
    rintro hnil
    rw [Desc.sites_without, hnil] at hne
    exact hne rfl
  · intro d' hd'
    obtain ⟨d, hd, rfl⟩ := h.cases hd'
    rw [Desc.sites_without, hn.root hd, List.filter_nil]
  · intro id p d' site hd' hs hp hroot
    have hne := h.document_ne hd' hs
    obtain ⟨d, hd, rfl⟩ := h.cases hd'
    rw [(Desc.sameOrigin_without _ _ d).parent?] at hp
    rw [Desc.sites_without] at hs
    exact h.hasSite hne (hn.parent hd (List.mem_filter.1 hs).1 hp hroot)
  · intro name x hlists
    rw [h.handles, lists_dropFrom hc.distinct] at hlists
    exact h.hasSite hlists.2 (hn.handle hlists.1)
  · intro other c id pl hfiled hpl
    rw [h.documents, OrderedMap.get?_erase] at hfiled
    split at hfiled
    · cases hfiled
    · rename_i hne
      obtain ⟨h1, h2⟩ := hn.place hfiled hpl
      exact ⟨h.hasSite hne h1, h2⟩
  · intro id d' site hd' hs
    have hne := h.document_ne hd' hs
    obtain ⟨d, hd, rfl⟩ := h.cases hd'
    rw [Desc.sites_without] at hs
    obtain ⟨c, hc, hmem⟩ := hn.held hd (List.mem_filter.1 hs).1
    exact ⟨c, by rw [h.documents, OrderedMap.get?_erase, if_neg hne, hc], hmem⟩

theorem sound (h : Withdrawn n document e) (hn : Sound n n.documents.get?) :
    Sound e.names e.names.documents.get? := by
  refine ⟨hn.tree.of_children h.keeps h.size ?_, h.anchored hn.anchored hn.handles, ?_, ?_⟩
  · intro id d d' hd hd'
    rw [h.descs, hd, Option.map_some] at hd'
    cases hd'
    exact ⟨Desc.live_without _ _ _, Desc.children_without _ _ _⟩
  · rw [h.constants]
    exact hn.constants.dropFrom
  · rw [h.handles]
    exact hn.handles.dropFrom

/-- Only descs that the document held can be left without declarations. -/
theorem undeclaredIn (h : Withdrawn n document e) (hn : Settled n) :
    UndeclaredIn e.names (n.heldBy document) := by
  intro id d' hd' hl hroot hnil
  obtain ⟨d, hd, rfl⟩ := h.cases hd'
  rw [Desc.live_without] at hl
  obtain ⟨site, hs⟩ := List.exists_mem_of_ne_nil _ (hn.declared hd hl hroot)
  rw [Desc.sites_without, List.filter_eq_nil_iff] at hnil
  have hdoc : site.element.document = document := by simpa using hnil site hs
  rw [← hdoc]
  exact hn.anchored.mem_heldBy hd hs

end Withdrawn

/-! ## Putting in -/

/-- What the documents have put in while `doc` is on its way. -/
def Entering.filed (base : DocumentId → Option Contribution) (doc : Document) (st : Entering) :
    DocumentId → Option Contribution :=
  Function.update base doc.id (some st.here)

section Entering

variable {base : DocumentId → Option Contribution} {doc : Document}

theorem Sound.start {e : Edit} (h : Sound e.names base) (hnone : base doc.id = none) :
    Sound e.names (Entering.filed base doc ⟨e, .start doc⟩) := by
  refine ⟨h.tree, ⟨h.anchored.live, h.anchored.root, h.anchored.parent, h.anchored.handle, ?_, ?_⟩,
    h.constants, h.handles⟩
  · intro document c id pl hc hpl
    by_cases hdoc : document = doc.id
    · subst hdoc
      rw [Entering.filed, Function.update_self] at hc
      cases hc
      simp at hpl
    · rw [Entering.filed, Function.update_of_ne hdoc] at hc
      exact h.anchored.place hc hpl
  · intro id d site hd hs
    obtain ⟨c, hc, hmem⟩ := h.anchored.held hd hs
    have hdoc : site.element.document ≠ doc.id := by
      intro heq
      rw [heq, hnone] at hc
      cases hc
    exact ⟨c, by rw [Entering.filed, Function.update_of_ne hdoc, hc], hmem⟩

/-- What stands in a desc keeps all anchored: nothing but places and handles changes. -/
theorem Anchored.placing {st : Entering} {n : Namespace} {parent id : ElementId} {pl : Place}
    (h : Anchored st.edit.names (st.filed base doc)) (hpl : st.here.place? parent = some pl)
    (hd : n.descs = st.edit.names.descs)
    (hh : ∀ {name : String} {x : Handle}, Lists n.handles name x →
      Lists st.edit.names.handles name x ∨ (x.desc = pl.scope ∧ x.site.document = doc.id)) :
    Anchored n ((st.place id ⟨pl.scope, none⟩).filed base doc) := by
  have hscope : st.edit.names.HasSite pl.scope doc.id :=
    (h.place (Function.update_self ..) hpl).1
  have hkeeps : st.edit.names.Keeps n := by
    intro j d hj
    exact ⟨d, by rw [hd, hj], .rfl⟩
  refine h.of_sites hkeeps (by rw [hd]) ?_ ?_ ?_ ?_
  · intro j d d' hj hj'
    rw [hd, hj] at hj'
    cases hj'
    exact ⟨rfl, fun _ hl => hl⟩
  · intro name x hlists
    rcases hh hlists with hold | ⟨hx, hdoc⟩
    · exact .inl hold
    · exact .inr (by rw [hx, hdoc]; exact hscope)
  · intro document c' j pl' hc' hpl'
    by_cases hdoc : document = doc.id
    · subst hdoc
      rw [Entering.filed, Function.update_self] at hc'
      cases hc'
      rcases Entering.place?_place_cases hpl' with hold | rfl
      · exact h.place (Function.update_self ..) hold
      · exact ⟨hscope, .inl rfl⟩
    · rw [Entering.filed, Function.update_of_ne hdoc] at hc'
      exact h.place (by rw [Entering.filed, Function.update_of_ne hdoc, hc']) hpl'
  · intro document c hc
    by_cases hdoc : document = doc.id
    · subst hdoc
      rw [Entering.filed, Function.update_self] at hc
      cases hc
      exact ⟨_, Function.update_self .., rfl⟩
    · rw [Entering.filed, Function.update_of_ne hdoc] at hc
      exact ⟨c, by rw [Entering.filed, Function.update_of_ne hdoc, hc], rfl⟩

/-- The desc that a step declares something in. -/
theorem Sound.scope {st : Entering} (h : Sound st.edit.names (st.filed base doc)) {scope : DescId}
    {kind : DescKind} (ha : st.Allows scope kind) :
    ∃ p, st.edit.names.descs[scope]? = some p ∧ p.live = true ∧
      (scope ≠ Namespace.root → st.edit.names.HasSite scope doc.id) ∧ kind ≠ .root ∧
      (kind = .file ↔ scope = Namespace.root) := by
  rcases ha with ⟨rfl, rfl⟩ | ⟨⟨id, pl, hpl, rfl⟩, hk, hf⟩
  · obtain ⟨p, hp, -⟩ := h.tree.root
    exact ⟨p, hp, h.tree.rootLive hp, fun hne => absurd rfl hne, by simp, by simp⟩
  · have hsite := (h.anchored.place (Function.update_self ..) hpl).1
    obtain ⟨p, hp, hne⟩ := hsite.exists_desc
    have hroot : pl.scope ≠ Namespace.root := by
      intro heq
      rw [heq] at hp
      exact hne (h.anchored.root hp)
    exact ⟨p, hp, h.anchored.live hp hne, fun _ => hsite, hk,
      ⟨fun heq => absurd heq hf, fun heq => absurd heq hroot⟩⟩

/-- A declaration as a step: what it adds, and that the desc it goes to hangs below `scope`. -/
theorem Sound.grown {st : Entering} (h : Sound st.edit.names (st.filed base doc)) {scope : DescId}
    {kind : DescKind} (ha : st.Allows scope kind) (id : ElementId) (e : Element) (name : String) :
    Grown st.edit (st.enter doc id e scope name kind).edit scope name
      (st.edit.childOf scope name kind) (Entering.siteOf doc id e) := by
  obtain ⟨p, hp, -⟩ := h.scope ha
  rw [Entering.edit_enter]
  exact grown_declareChild h.tree hp name kind _

theorem Sound.declare {st : Entering} (h : Sound st.edit.names (st.filed base doc)) {scope : DescId}
    {kind : DescKind} (ha : st.Allows scope kind) (id : ElementId) (e : Element) (name : String) :
    Sound (st.enter doc id e scope name kind).edit.names
      ((st.enter doc id e scope name kind).filed base doc) := by
  obtain ⟨p, hp, hlive, hsite, hk, hf⟩ := h.scope ha
  have hg := h.grown ha id e name
  have tree : IsTree (st.enter doc id e scope name kind).edit.names :=
    h.tree.declareChild hp hlive name hk hf _
  refine ⟨tree, ?_, ?_, ?_⟩
  · have hplaces : ∀ {x : ElementId} {pl : Place},
        (st.enter doc id e scope name kind).here.place? x = some pl → st.here.place? x = some pl ∨
          pl = ⟨st.edit.childOf scope name kind, some (st.edit.childOf scope name kind)⟩ := by
      intro x pl hx
      rw [Entering.place?_enter] at hx
      split at hx
      · exact .inr (Option.some.inj hx).symm
      · exact .inl hx
    have := h.anchored.grow tree hg hsite (Function.update_self ..)
      (Entering.descs_enter st doc id e scope name kind) hplaces
    rwa [Entering.filed, Entering.document_siteOf, Function.update_idem] at this
  · rw [hg.constants]
    exact h.constants
  · rw [hg.handles]
    exact h.handles

theorem Sound.step {st st' : Entering} (h : Sound st.edit.names (st.filed base doc))
    (hs : Entering.Step doc st st') : Sound st'.edit.names (st'.filed base doc) := by
  cases hs with
  | declare _ name allowed => exact h.declare allowed _ _ name
  | constant hpl _ =>
    exact ⟨h.tree.of_descs rfl, h.anchored.placing hpl rfl .inl, h.constants.alter _, h.handles⟩
  | handle hpl name =>
    refine ⟨h.tree.of_descs rfl, h.anchored.placing hpl rfl ?_, h.constants, h.handles.alter _⟩
    intro other x hlists
    rcases (lists_alter _ name other _ x).1 hlists with hold | ⟨-, rfl⟩
    · exact .inl hold
    · exact .inr ⟨rfl, rfl⟩
  | other hpl => exact ⟨h.tree.of_descs rfl, h.anchored.placing hpl rfl .inl, h.constants, h.handles⟩

/-- A step leaves no desc without declarations. -/
theorem UndeclaredIn.step {st st' : Entering} {ids : List DescId}
    (hu : UndeclaredIn st.edit.names ids) (h : Sound st.edit.names (st.filed base doc))
    (hs : Entering.Step doc st st') : UndeclaredIn st'.edit.names ids := by
  cases hs with
  | @declare id e scope kind he name allowed =>
    have hg := h.grown allowed id e name
    intro j d' hd' hl hroot hnil
    rcases hg.fresh hd' with ⟨d, hd⟩ | rfl
    · refine hu hd (by rw [← hg.live hd hd', hl]) hroot (List.eq_nil_iff_forall_not_mem.2 ?_)
      intro site hsite
      have := hg.more hd hd' hsite
      rw [hnil] at this
      cases this
    · obtain ⟨d, hd, -, -, -, site, hsite, -⟩ := hg.declared
      rw [hd'] at hd
      cases hd
      rw [hnil] at hsite
      cases hsite
  | constant => exact hu
  | handle => exact hu
  | other => exact hu

end Entering

/-! ## Pruning -/

/-- Bare descs have left the tree, one after the other. -/
inductive Unlinks : Edit → Edit → Prop where
  | refl (e : Edit) : Unlinks e e
  | step {e e' e'' : Edit} {id parent : DescId} {d : Desc} (hd : e.names.descs[id]? = some d)
      (hl : d.live = true) (hb : d.isBare = true) (hp : d.parent? = some parent)
      (hu : Edit.Unlinking e e' id d parent) (rest : Unlinks e' e'') : Unlinks e e''

theorem Unlinks.trans {e₁ e₂ e₃ : Edit} (h₁ : Unlinks e₁ e₂) (h₂ : Unlinks e₂ e₃) : Unlinks e₁ e₃ := by
  induction h₁ with
  | refl => exact h₂
  | step hd hl hb hp hu _ ih => exact .step hd hl hb hp hu (ih h₂)

theorem Desc.isBare_iff (d : Desc) : d.isBare = true ↔ d.sites = [] ∧ d.children.isEmpty = true := by
  simp [isBare, List.isEmpty_iff]

theorem Sound.unlink {e e' : Edit} (h : Sound e.names e.names.documents.get?) {id parent : DescId}
    {d : Desc} (hd : e.names.descs[id]? = some d) (hl : d.live = true) (hb : d.isBare = true)
    (hp : d.parent? = some parent) (hu : Edit.Unlinking e e' id d parent) :
    Sound e'.names e'.names.documents.get? := by
  obtain ⟨hs, hc⟩ := d.isBare_iff.1 hb
  refine ⟨h.tree.unlink hd hl hc hp hu, h.anchored.unlink hd hs hu, ?_, ?_⟩
  · rw [hu.constants]
    exact h.constants
  · rw [hu.handles]
    exact h.handles

theorem Unlinks.sound {e e' : Edit} (h : Unlinks e e') (hs : Sound e.names e.names.documents.get?) :
    Sound e'.names e'.names.documents.get? := by
  induction h with
  | refl => exact hs
  | step hd hl hb hp hu _ ih => exact ih (hs.unlink hd hl hb hp hu)

/-- All bare descs of the tree are among `ids`. -/
def BareIn (n : Namespace) (ids : List DescId) : Prop :=
  ∀ ⦃id : DescId⦄ ⦃d : Desc⦄, n.descs[id]? = some d → d.live = true → id ≠ Namespace.root →
    d.isBare = true → id ∈ ids

/-- Climbing from a desc lets it leave if it is bare; only its parent can become bare by that. -/
theorem unlinks_climb (id : DescId) {e : Edit} (h : Sound e.names e.names.documents.get?)
    {rest : List DescId} (hb : BareIn e.names (id :: rest)) :
    Unlinks e (e.climb id) ∧ BareIn (e.climb id).names rest := by
  induction id using Nat.strongRecOn generalizing e with
  | ind id ih =>
    by_cases hbare : ∃ d, e.names.descs[id]? = some d ∧ d.live = true ∧ id ≠ Namespace.root ∧
        d.isBare = true
    · obtain ⟨d, hd, hl, hroot, hbare⟩ := hbare
      obtain ⟨parent, pd, hpd, hbelow⟩ := h.tree.below hd hroot
      have hne : parent ≠ id := Nat.ne_of_lt hbelow.lt
      have hu := Edit.unlinking_unlink e id d hne
      rw [Edit.climb_eq_unlink hd hl hbelow.kind_ne hbare hbelow.parent? hbelow.lt]
      have hparent : BareIn (e.unlink id d parent).names (parent :: rest) := by
        intro j x hx hxl hxr hxb
        rcases hu.cases hne hd hpd hx with ⟨-, rfl⟩ | ⟨rfl, -⟩ | ⟨hj, -, hold⟩
        · cases hxl
        · exact List.mem_cons_self
        · exact List.mem_cons_of_mem _ ((List.mem_cons.1 (hb hold hxl hxr hxb)).resolve_left hj)
      obtain ⟨hrest, hout⟩ := ih parent hbelow.lt (h.unlink hd hl hbare hbelow.parent? hu) hparent
      exact ⟨.step hd hl hbare hbelow.parent? hu hrest, hout⟩
    · rw [Edit.climb_eq_self]
      · refine ⟨.refl e, ?_⟩
        intro j x hx hxl hxr hxb
        refine (List.mem_cons.1 (hb hx hxl hxr hxb)).resolve_left ?_
        rintro rfl
        exact hbare ⟨x, hx, hxl, hxr, hxb⟩
      · intro d hd hl hk
        rw [← Bool.not_eq_true]
        intro hb
        exact hbare ⟨d, hd, hl, fun hr => hk ((h.tree.kind_eq_root_iff hd).2 hr), hb⟩

theorem unlinks_prune {held : List DescId} {e : Edit} (h : Sound e.names e.names.documents.get?)
    (hb : BareIn e.names held.reverse) : Unlinks e (e.prune held) ∧ BareIn (e.prune held).names [] := by
  unfold Edit.prune
  generalize held.reverse = ids at hb
  induction ids generalizing e with
  | nil => exact ⟨.refl e, hb⟩
  | cons id rest ih =>
    obtain ⟨hu, hb'⟩ := unlinks_climb id h hb
    obtain ⟨hus, hout⟩ := ih (hu.sound h) hb'
    exact ⟨hu.trans hus, hout⟩

/-- Where no desc is bare all are declared: one without declarations has a child, which has none
either, as it would be declared where its parent is. -/
theorem Sound.settled {n : Namespace} (h : Sound n n.documents.get?) (hb : BareIn n []) : Settled n := by
  refine ⟨h, ?_⟩
  -- by descent from the desc: children have larger numbers
  have down : ∀ (k : Nat) {id : DescId} {d : Desc}, n.descs.size - id ≤ k →
      n.descs[id]? = some d → d.live = true → id ≠ Namespace.root → d.sites ≠ [] := by
    intro k
    induction k with
    | zero =>
      intro id d hk hd
      exact absurd (lt_size hd) (Nat.not_lt.2 (Nat.le_of_sub_eq_zero (Nat.le_zero.1 hk)))
    | succ k ih =>
      intro id d hk hd hl hroot hnil
      have hchild : d.children.isEmpty ≠ true := by
        intro hempty
        have := hb hd hl hroot (d.isBare_iff.2 ⟨hnil, hempty⟩)
        cases this
      rw [Ne, OrderedMap.isEmpty_iff] at hchild
      obtain ⟨name, hname⟩ := not_forall.1 hchild
      obtain ⟨c, hc⟩ := Option.ne_none_iff_exists'.1 hname
      obtain ⟨x, hx, hxl, -, hpar⟩ := h.tree.child hd hc
      have hlt : id < c := h.tree.lt_child hd hc
      have hsize : id < n.descs.size := lt_size hd
      have hc0 : c ≠ Namespace.root := Nat.ne_of_gt (Nat.zero_lt_of_lt hlt)
      have hsites := ih (by
        have h1 : n.descs.size - c < n.descs.size - id := Nat.sub_lt_sub_left hsize hlt
        exact Nat.le_of_lt_succ (Nat.lt_of_lt_of_le h1 hk)) hx hxl hc0
      obtain ⟨site, hsite⟩ := List.exists_mem_of_ne_nil _ hsites
      obtain ⟨d', hd', s, hs, -⟩ := h.anchored.parent hx hsite hpar hroot
      rw [hd] at hd'
      cases hd'
      rw [hnil] at hs
      cases hs
  intro id d
  exact down _ (Nat.le_refl _)

end Namespace
end UILayout
