import UILayout.Proofs.Namespace.Order
import UILayout.Proofs.Namespace.Persist

/-!
# UILayout.Proofs.Namespace.Resync

Bringing the namespace up to date with a document that it is up to date with. Every declaration finds
its desc, as none has left the tree since the document was put in; so no desc is made, none leaves, and
the tree stays as it is. What is taken back comes in again behind what the other documents have put in.

* `Settled.unmoved_sync`: the tree stays as it is.
* `undated_resync`: doing it a second time changes nothing but revisions.
-/

namespace UILayout
namespace Namespace

open Schema Markup

/-- What a namespace holds of a document is what the document lists. -/
def Mirrors (n : Namespace) (s : Schema) (doc : Document) : Prop :=
  ∀ item : Item, item.document? = some doc.id → (n.Holds item ↔ (listing s doc).Holds doc.id item)

/-- An edit has made no desc and let none leave, and all have their children in their order. -/
structure Unmoved (n : Namespace) (e : Edit) : Prop where
  keeps : n.Keeps e.names
  size : e.names.descs.size = n.descs.size
  shape : ∀ id : DescId, (e.names.descs[id]?).map (fun d => (d.live, d.children)) =
    (n.descs[id]?).map fun d => (d.live, d.children)
  children : e.changes.children = []
  removed : e.changes.removed = []

theorem mirrors_of_current {history : List Update} {s : Schema} {doc : Document}
    (h : current history doc.id = some (s, doc)) : Mirrors (after history) s doc := by
  intro item hi
  rw [holds_of_document history hi, h]
  simp

section

variable {n m : Namespace} {s : Schema} {doc : Document}

theorem Settled.mirrors_sync (hn : Settled n) (s : Schema) (doc : Document) :
    Mirrors (n.sync s doc).names s doc := by
  intro item hi
  refine (hn.holds_edit (.sync s doc) hi).trans ?_
  simp [Update.document, Update.content?]

/-- A path that a document declares before and after is declared by the same desc, if this keeps its
path. -/
theorem Mirrors.declaresAt (hn : Mirrors n s doc) (hm : Mirrors m s doc) (tree : IsTree m)
    {id : DescId} {path : List String} (hpath : m.path? id = n.path? id)
    (h : n.DeclaresAt doc.id id path) : m.DeclaresAt doc.id id path := by
  obtain ⟨hp, d, hd, site, hsite, hdoc⟩ := h
  have hheld : n.Holds (.site path site) := holds_site_iff.2 ⟨id, hp, d, hd, hsite⟩
  have hitem : (Item.site path site).document? = some doc.id := congrArg some hdoc
  obtain ⟨other, hother, hat⟩ := holds_site_iff.1 ((hm _ hitem).2 ((hn _ hitem).1 hheld))
  have hid := tree.path?_injective hother (hpath.trans hp)
  subst hid
  exact ⟨hother, hdoc ▸ hat.hasSite⟩

/-! ## No desc is made -/

theorem Settled.size_entered (hn : Settled n) (hm : Mirrors n s doc) :
    ((Update.sync s doc).entered n).names.descs.size = n.descs.size := by
  have htrace := Trace.entered hn (.sync s doc)
  have hlaid := hn.laid_entered (.sync s doc)
  have hsound := (hn.entered (.sync s doc)).1
  have hle := (Outlasts.of_keeps htrace.keeps fun {_ d d'} hd hd' hdead => by
    rw [← Bool.not_eq_true] at hdead ⊢
    exact fun hlive => hdead (htrace.stays hd hd' hlive)).size
  refine Nat.le_antisymm (Nat.le_of_not_lt fun hlt => ?_) hle
  -- the first new desc would stand at a path that the document lists, and so has a desc already
  have hnone : n.descs[n.descs.size]? = none := Array.getElem?_eq_none (Nat.le_refl _)
  have hd := Array.getElem?_eq_getElem hlt
  have hne := htrace.declared hnone hd
  have hlive := live?_eq_some_iff.2 ⟨hd, hsound.anchored.live hd hne⟩
  obtain ⟨path, hpath⟩ := hsound.tree.exists_path hlive
  have hsites := hlaid.sites hpath
  rw [sitesAt_of_descs hd, sitesAt, hnone] at hsites
  have hlisted : (listing s doc).sitesAt path ≠ [] := fun hnil => hne (hsites.trans hnil)
  obtain ⟨site, hsite⟩ := Listing.exists_site hlisted
  obtain ⟨id, el, -, rfl⟩ := (listing_within s doc).sites _ hsite
  obtain ⟨old, x, hx, hold, -⟩ := (hm (.site path (Entering.siteOf doc id el)) rfl).2 hsite
  obtain ⟨x', hx'⟩ := hn.live_entered (.sync s doc) hx
  rw [← hn.tree.path?_keeps hsound.tree htrace.keeps hx hx'] at hold
  have hsame := hsound.tree.path?_injective hold hpath
  subst hsame
  rw [(live?_eq_some_iff.1 hx).1] at hnone
  cases hnone

/-- Putting a document in moves nothing when it makes no desc. -/
theorem Settled.unmoved_entered (hn : Settled n)
    (hsize : ((Update.sync s doc).entered n).names.descs.size = n.descs.size) :
    Unmoved n ((Update.sync s doc).entered n) := by
  have hw := withdrawn_spec hn.anchored doc.id
  have hback : Unmoved n (n.withdrawn doc.id) := by
    refine ⟨hw.keeps, hw.size, fun id => ?_, hw.children, hw.removed⟩
    rw [hw.descs, Option.map_map]
    congr 1
    funext d
    simp
  rcases Edit.enter_cases s doc (n.withdrawn doc.id) with ⟨-, heq⟩ | ⟨root, el, -, hel, -, heq⟩
  · rw [Update.entered, heq]
    exact hback
  · rw [Update.entered, heq] at hsize ⊢
    -- at every point, either nothing has moved yet or a desc has been made
    have hstep : ∀ st st' : Entering, Underway n doc st →
        (n.descs.size ≤ st.edit.names.descs.size ∧
          (st.edit.names.descs.size = n.descs.size → Unmoved n st.edit)) →
        Entering.Step doc st st' → n.descs.size ≤ st'.edit.names.descs.size ∧
          (st'.edit.names.descs.size = n.descs.size → Unmoved n st'.edit) := by
      rintro st st' hu ⟨hle, h⟩ hstep
      have still : ∀ {e : Edit}, e.names.descs = st.edit.names.descs →
          e.changes.children = st.edit.changes.children → e.changes.removed = st.edit.changes.removed →
          n.descs.size ≤ e.names.descs.size ∧ (e.names.descs.size = n.descs.size → Unmoved n e) := by
        intro e hdescs hchildren hremoved
        rw [hdescs]
        refine ⟨hle, fun hsame => ?_⟩
        have hm := h hsame
        exact ⟨fun id d hd => hdescs ▸ hm.keeps hd, hdescs ▸ hsame, fun id => hdescs ▸ hm.shape id,
          hchildren.trans hm.children, hremoved.trans hm.removed⟩
      cases hstep with
      | @declare id e scope kind he name allowed =>
        obtain ⟨p, hp, -⟩ := hu.sound.scope allowed
        rw [Entering.edit_enter]
        cases hc : p.children.get? name with
        | some child =>
          have hold := Edit.declareChild_old hp hc kind (Entering.siteOf doc id e)
          refine ⟨hold.size ▸ hle, fun hsame => ?_⟩
          have hm := h (hold.size ▸ hsame)
          refine ⟨hm.keeps.trans hold.keeps, hsame, fun j => ?_, hold.children.trans hm.children,
            hold.removed.trans hm.removed⟩
          rw [← hm.shape, hold.descs]
          split
          · rw [Option.map_map]
            congr 1
            funext d
            simp
          · rfl
        | none =>
          have hnew := Edit.declareChild_new hp hc kind (Entering.siteOf doc id e)
          rw [hnew.size]
          refine ⟨Nat.le_succ_of_le hle, fun hsame => ?_⟩
          rw [← hsame] at hle
          exact absurd hle (Nat.not_succ_le_self _)
      | constant => exact still rfl rfl rfl
      | handle => exact still rfl rfl rfl
      | other => exact ⟨hle, h⟩
    obtain ⟨hkeeps, hsame, hshape, hchildren, hremoved⟩ :=
      (hn.entering s hel ⟨Nat.le_of_eq hw.size.symm, fun _ => hback⟩ hstep).2.2 hsize
    exact ⟨hkeeps, hsame, hshape, hchildren, hremoved⟩

theorem Unmoved.live?_iff {e : Edit} (h : Unmoved n e) (id : DescId) :
    (∃ d, e.names.live? id = some d) ↔ ∃ d, n.live? id = some d := by
  have hlive : (e.names.descs[id]?).map (·.live) = (n.descs[id]?).map (·.live) := by
    have hfst := congrArg (Option.map Prod.fst) (h.shape id)
    rwa [Option.map_map, Option.map_map] at hfst
  have iff_live : ∀ m : Namespace,
      (∃ d, m.live? id = some d) ↔ (m.descs[id]?).map (·.live) = some true := by
    intro m
    simp [live?_eq_some_iff]
  rw [iff_live, iff_live, hlive]

theorem Unmoved.path? {e : Edit} (h : Unmoved n e) (hn : IsTree n) (he : IsTree e.names)
    (id : DescId) : e.names.path? id = n.path? id := by
  cases hp : n.path? id with
  | some path =>
    obtain ⟨d, hd⟩ := live_of_path? hp
    obtain ⟨d', hd'⟩ := (h.live?_iff id).2 ⟨d, hd⟩
    rw [hn.path?_keeps he h.keeps hd hd', hp]
  | none =>
    by_contra hne
    obtain ⟨path, hpath⟩ := Option.ne_none_iff_exists'.1 hne
    obtain ⟨d, hd⟩ := (h.live?_iff id).1 (live_of_path? hpath)
    obtain ⟨path', hpath'⟩ := hn.exists_path hd
    rw [hp] at hpath'
    cases hpath'

theorem sitesAt_eq_nil {filed : DocumentId → Option Contribution} (hn : Sound n filed) {id : DescId}
    (h : n.live? id = none) : n.sitesAt id = [] := by
  cases hd : n.descs[id]? with
  | none =>
    rw [sitesAt, hd]
    rfl
  | some d =>
    rw [sitesAt_of_descs hd]
    by_contra hne
    rw [live?_eq_some_iff.2 ⟨hd, hn.anchored.live hd hne⟩] at h
    cases h

/-- A desc that is out of the tree has no declarations afterwards, either. -/
theorem Unmoved.sitesAt_eq_nil {e : Edit} {filed : DocumentId → Option Contribution} (h : Unmoved n e)
    (he : Sound e.names filed) {id : DescId} (hd : n.live? id = none) : e.names.sitesAt id = [] := by
  refine Namespace.sitesAt_eq_nil he ?_
  by_contra hne
  obtain ⟨d, hlive⟩ := (h.live?_iff id).1 (Option.ne_none_iff_exists'.1 hne)
  rw [hd] at hlive
  cases hlive

/-! ## No desc leaves -/

/-- Pruning does nothing where no desc is bare. -/
theorem Unlinks.eq_self {e e' : Edit} (h : Unlinks e e')
    (hdeclared : ∀ {id : DescId} {d : Desc}, e.names.descs[id]? = some d → d.live = true →
      id ≠ Namespace.root → d.sites ≠ []) (hs : Sound e.names e.names.documents.get?) : e' = e := by
  cases h with
  | refl => rfl
  | @step _ _ _ id parent d hd hl hb hp hu rest =>
    obtain ⟨_, -, hbelow⟩ := hs.tree.below_of_parent? hd hp
    have hroot : id ≠ Namespace.root := Nat.ne_of_gt (Nat.zero_lt_of_lt hbelow.lt)
    exact absurd (d.isBare_iff.1 hb).1 (hdeclared hd hl hroot)

theorem Settled.edit_eq_entered (hn : Settled n) (hm : Mirrors n s doc) :
    n.sync s doc = (Update.sync s doc).entered n := by
  have hu := hn.unmoved_entered (hn.size_entered hm)
  have hlaid := hn.laid_entered (.sync s doc)
  have hsound := (hn.entered (.sync s doc)).1
  refine (hn.update (.sync s doc)).1.eq_self (fun {id d'} hd' hl hroot hnil => ?_) hsound
  have hlive' := live?_eq_some_iff.2 ⟨hd', hl⟩
  obtain ⟨d, hd⟩ := (hu.live?_iff id).1 ⟨d', hlive'⟩
  obtain ⟨hid, hld⟩ := live?_eq_some_iff.1 hd
  obtain ⟨path, hpath⟩ := hsound.tree.exists_path hlive'
  have hsites := hlaid.sites hpath
  rw [sitesAt_of_descs hd', hnil, sitesAt_of_descs hid, eq_comm, List.append_eq_nil_iff,
    List.filter_eq_nil_iff] at hsites
  obtain ⟨hown, hlisted⟩ := hsites
  -- a declaration that was there was one of the document, and has been put in again
  obtain ⟨site, hsite⟩ := List.exists_mem_of_ne_nil _ (hn.declared hid hld hroot)
  have hdoc : site.element.document = doc.id :=
    Decidable.not_not.1 fun hne => hown site hsite (decide_eq_true hne)
  rw [hu.path? hn.tree hsound.tree] at hpath
  have hholds := (hm (.site path site) (congrArg some hdoc)).1 ⟨id, d, hd, hpath, hsite⟩
  exact Listing.sitesAt_ne_nil hholds hlisted

theorem Settled.unmoved_sync (hn : Settled n) (hm : Mirrors n s doc) : Unmoved n (n.sync s doc) := by
  rw [hn.edit_eq_entered hm]
  exact hn.unmoved_entered (hn.size_entered hm)

end

/-! ## Once more -/

/-- A namespace without its revisions. -/
def undated (n : Namespace) : Namespace :=
  { n with descs := n.descs.map Desc.undated, revision := 0 }

section

variable {n m : Namespace} {document : DocumentId} {l : Listing}

theorem HandleIs.unique (hm : IsTree m) {h h' : Handle} {listed : String × List String × ElementRef}
    (hh : m.HandleIs document h listed) (hh' : m.HandleIs document h' listed) : h = h' := by
  obtain ⟨hname, ⟨hpath, -⟩, hsite⟩ := hh
  obtain ⟨hname', ⟨hpath', -⟩, hsite'⟩ := hh'
  have hdesc := hm.path?_injective hpath hpath'
  obtain ⟨name, desc, site⟩ := h
  obtain ⟨name', desc', site'⟩ := h'
  simp_all

theorem handles_unique (hm : IsTree m) {hs hs' : List Handle}
    (h : List.Forall₂ (m.HandleIs document) hs l.handles)
    (h' : List.Forall₂ (m.HandleIs document) hs' l.handles) : hs = hs' :=
  List.left_unique_forall₂' (fun _ _ _ hh hh' => hh.unique hm hh') h h'

theorem PlaceIs.unique (hm : IsTree m) {pl pl' : Place} {spot : Spot}
    (hp : m.PlaceIs document pl spot) (hp' : m.PlaceIs document pl' spot) : pl = pl' := by
  obtain ⟨⟨hpath, -⟩, hdeclares⟩ := hp
  obtain ⟨⟨hpath', -⟩, hdeclares'⟩ := hp'
  have hscope := hm.path?_injective hpath hpath'
  obtain ⟨scope, declares?⟩ := pl
  obtain ⟨scope', declares?'⟩ := pl'
  simp_all

/-- A listing leaves open neither what is filed nor in which order. -/
theorem Files.unique (hm : IsTree m) {c c' : Contribution} (h : Files m document c l)
    (h' : Files m document c' l) : c = c' := by
  have hdescs : c.descs = c'.descs := by
    refine List.left_unique_forall₂' ?_ h.descs h'.descs
    intro id x id' ha ha'
    exact hm.path?_injective ha.1 ha'.1
  have hplace : ∀ id, c.place? id = c'.place? id := by
    intro id
    have hp := h.places id
    have hp' := h'.places id
    generalize c.place? id = pl at hp
    generalize c'.place? id = pl' at hp'
    generalize l.spot? id = spot at hp hp'
    cases hp with
    | none =>
      cases hp'
      rfl
    | some hp =>
      cases hp' with
      | some hp' => rw [hp.unique hm hp']
  have hsize : c.places.size = c'.places.size := h.size.trans h'.size.symm
  have hplaces : c.places = c'.places := by
    refine Array.ext hsize fun i hi hi' => ?_
    have := hplace i
    simpa [Contribution.place?, hi, hi'] using this
  obtain ⟨descs, places⟩ := c
  obtain ⟨descs', places'⟩ := c'
  simp_all

theorem document_of_handleIs {hs : List Handle}
    (h : List.Forall₂ (m.HandleIs document) hs l.handles)
    (hl : ∀ x ∈ l.handles, x.2.2.document = document) : ∀ x ∈ hs, x.site.document = document := by
  generalize l.handles = listed at h hl
  induction h with
  | nil => exact nofun
  | cons hh _ ih =>
    intro x hx
    rcases List.mem_cons.1 hx with rfl | hx
    · rw [hh.2.2]
      exact hl _ List.mem_cons_self
    · exact ih (fun y hy => hl y (List.mem_cons_of_mem _ hy)) x hx

namespace Arranged

variable {m' : Namespace}

/-! What has been put in behind all else is taken back and put in behind all else again. -/

theorem constants_again (h : Arranged n m document l) (h' : Arranged m m' document l)
    (hl : l.StandsIn document) : m'.constants = m.constants := by
  rw [h'.constants, h.constants, dropFrom_enrol hl.constants, dropFrom_dropFrom]

theorem handles_again (h : Arranged n m document l) (h' : Arranged m m' document l)
    (hl : l.StandsIn document) (tree : IsTree m')
    (keep : ∀ {id : DescId} {path : List String}, m.DeclaresAt document id path →
      m'.DeclaresAt document id path) : m'.handles = m.handles := by
  obtain ⟨hs, hlisted, heq⟩ := h.handles
  obtain ⟨hs', hlisted', heq'⟩ := h'.handles
  have hsame : hs' = hs := handles_unique tree hlisted' (hlisted.imp fun _ _ hh => hh.imp keep)
  rw [heq', heq, hsame, dropFrom_enrol (document_of_handleIs hlisted hl.handles), dropFrom_dropFrom]

theorem sitesAt_again (h : Arranged n m document l) (h' : Arranged m m' document l)
    (hl : l.StandsIn document) {id : DescId} {path : List String} (hp : m.path? id = some path)
    (hp' : m'.path? id = some path) : m'.sitesAt id = m.sitesAt id := by
  have hown : (l.sitesAt path).filter (·.element.document ≠ document) = [] := by
    rw [List.filter_eq_nil_iff]
    exact fun site hsite hne => of_decide_eq_true hne (hl.sitesAt hsite)
  rw [h'.sites hp', h.sites hp, List.filter_append, hown, List.append_nil, List.filter_filter]
  simp

end Arranged

/-- Descs that have been left where they are, with their declarations, differ in their revisions at
most. -/
theorem Unmoved.descs {e : Edit} (h : Unmoved n e)
    (hsites : ∀ id, e.names.sitesAt id = n.sitesAt id) :
    e.names.descs.map Desc.undated = n.descs.map Desc.undated := by
  refine Array.ext_getElem? fun id => ?_
  rw [Array.getElem?_map, Array.getElem?_map]
  cases hd : n.descs[id]? with
  | none =>
    have hnone : e.names.descs[id]? = none := by
      rw [Array.getElem?_eq_none_iff] at hd ⊢
      rw [h.size]
      exact hd
    rw [hnone]
  | some d =>
    obtain ⟨d', hd', hname, hkind, hpath, hparent, hfile⟩ := h.keeps hd
    have hshape := h.shape id
    have hsame := hsites id
    rw [hd, hd', Option.map_some, Option.map_some, Option.some.injEq, Prod.mk.injEq] at hshape
    rw [sitesAt_of_descs hd, sitesAt_of_descs hd'] at hsame
    rw [hd', Option.map_some, Option.map_some]
    obtain ⟨⟩ := d
    obtain ⟨⟩ := d'
    simp_all [Desc.undated]

/-- What is filed for a document is filed again. -/
theorem documents_again {u : Update} (hn : Settled n) (hm : Settled (u.edit n).names)
    (tree : IsTree (u.edit (u.edit n).names).names)
    (keep : ∀ {id : DescId} {path : List String}, (u.edit n).names.DeclaresAt u.document id path →
      (u.edit (u.edit n).names).names.DeclaresAt u.document id path) :
    (u.edit (u.edit n).names).names.documents = (u.edit n).names.documents := by
  rcases hn.documents_edit u with ⟨hout, heq⟩ | ⟨hin, c, heq, hfiles⟩ <;>
    rcases hm.documents_edit u with ⟨hout', heq'⟩ | ⟨hin', c', heq', hfiles'⟩
  · rw [heq', heq, OrderedMap.erase_erase]
  · exact absurd hin' hout
  · exact absurd hin hout'
  · have hsame : c = c' := (hfiles.imp keep).unique tree hfiles'
    rw [heq', heq, OrderedMap.erase_put, OrderedMap.erase_erase, hsame]

end

/-- Bringing a namespace up to date with a document twice comes to the same as doing it once, but for
revisions: all descs, with their children and declarations, all constants and handles and all that is
filed for the documents are the same, in the same order. The second time reports that no children have
changed and that no desc has left. -/
theorem undated_resync (history : List Update) (s : Schema) (doc : Document) :
    let once := (after history).sync s doc
    let twice := once.names.sync s doc
    twice.names.undated = once.names.undated ∧ twice.changes.children = [] ∧
      twice.changes.removed = [] := by
  intro once twice
  have hn := settled_after history
  have hn₁ : Settled once.names := (hn.update (.sync s doc)).2
  have hn₂ : Settled twice.names := (hn₁.update (.sync s doc)).2
  have hmirrors : Mirrors once.names s doc := hn.mirrors_sync s doc
  have hunmoved : Unmoved once.names twice := hn₁.unmoved_sync hmirrors
  have harranged : Arranged (after history) once.names doc.id (listing s doc) :=
    hn.arranged_edit (.sync s doc)
  have hagain : Arranged once.names twice.names doc.id (listing s doc) :=
    hn₁.arranged_edit (.sync s doc)
  have hl := (listing_within s doc).standsIn
  have hpath : ∀ id, twice.names.path? id = once.names.path? id := hunmoved.path? hn₁.tree hn₂.tree
  have hsites : ∀ id, twice.names.sitesAt id = once.names.sitesAt id := by
    intro id
    cases hd : once.names.live? id with
    | some d =>
      obtain ⟨path, hp⟩ := hn₁.tree.exists_path hd
      exact harranged.sitesAt_again hagain hl hp ((hpath id).trans hp)
    | none => rw [sitesAt_eq_nil hn₁.toSound hd, hunmoved.sitesAt_eq_nil hn₂.toSound hd]
  have keep : ∀ {id : DescId} {path : List String}, once.names.DeclaresAt doc.id id path →
      twice.names.DeclaresAt doc.id id path := fun {id path} =>
    hmirrors.declaresAt (hn₁.mirrors_sync s doc) hn₂.tree (hpath id)
  have hdocuments : twice.names.documents = once.names.documents :=
    documents_again hn hn₁ (u := .sync s doc) hn₂.tree keep
  refine ⟨?_, hunmoved.children, hunmoved.removed⟩
  unfold undated
  rw [hunmoved.descs hsites, harranged.constants_again hagain hl,
    harranged.handles_again hagain hl hn₂.tree keep, hdocuments]

end Namespace
end UILayout
