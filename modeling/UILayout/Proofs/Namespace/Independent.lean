import UILayout.Proofs.Namespace.Abreast

/-!
# UILayout.Proofs.Namespace.Independent

The namespace does not depend on its history: it holds what the documents that are in it declare, each
walked on its own, whatever has been put in, changed and taken out before.

* `Tracks.holds_iff`: a document that has been put in is held as it is listed.
* `holds_after`: a namespace holds the union of the listings.
-/

namespace UILayout
namespace Namespace

open Schema Markup

section

variable {n : Namespace} {doc : Document} {st : Entering} {l : Listing}

/-- What the namespace holds from a document that has been put in is what has been listed. -/
theorem Tracks.holds_iff (h : Tracks doc st l) (hu : Underway n doc st) {item : Item}
    (hi : item.document? = some doc.id) :
    (Edit.file doc st).names.Holds item ↔ l.Holds doc.id item := by
  have hpaths := hu.sound.tree.path?_of_descs (m := (Edit.file doc st).names) rfl
  have hplace : ∀ {r : ElementRef}, r.document = doc.id →
      (Edit.file doc st).names.place? r = st.here.place? r.element := by
    rintro r hr
    rw [place?, hr, Edit.file, OrderedMap.get?_put, if_pos rfl, Option.bind_some]
  cases item with
  | path path => cases hi
  | site path site =>
    rw [holds_site_iff]
    refine Iff.trans (exists_congr fun id => ?_) h.sites.symm
    rw [hpaths]
    exact and_congr_right fun _ => ⟨fun hs => ⟨hs, Option.some.inj hi⟩, And.left⟩
  | constant name c =>
    refine Iff.trans ?_ (and_congr_left' h.constants.symm)
    constructor
    · intro hc
      have hname := hu.sound.constants.named hc
      exact ⟨⟨by rw [hname]; exact hc, Option.some.inj hi⟩, hname⟩
    · rintro ⟨⟨hc, -⟩, rfl⟩
      exact hc
  | handle name path site =>
    refine Iff.trans (exists_congr fun x => ?_) h.handles.symm
    rw [hpaths]
    exact and_congr_right fun _ => and_congr_right fun _ =>
      ⟨fun hp => ⟨hp, Option.some.inj hi⟩, And.left⟩
  | scope element path =>
    have hdoc : element.document = doc.id := Option.some.inj hi
    simp only [Holds, Listing.Holds, scope?, hplace hdoc, hpaths]
    constructor
    · rintro ⟨id, hid, hp⟩
      obtain ⟨pl, hpl, rfl⟩ := Option.map_eq_some_iff.1 hid
      obtain ⟨path', hpath, hspot⟩ := h.spot hu hpl
      rw [hp] at hpath
      cases hpath
      exact ⟨hdoc, _, hspot, rfl⟩
    · rintro ⟨-, spot, hspot, rfl⟩
      rw [h.spots] at hspot
      obtain ⟨pl, hpl, hmap⟩ := Option.bind_eq_some_iff.1 hspot
      obtain ⟨path', hpath, rfl⟩ := Option.map_eq_some_iff.1 hmap
      exact ⟨pl.scope, by rw [hpl, Option.map_some], hpath⟩
  | declared element path =>
    have hdoc : element.document = doc.id := Option.some.inj hi
    simp only [Holds, Listing.Holds, declared?, hplace hdoc, hpaths]
    constructor
    · rintro ⟨id, hid, hp⟩
      obtain ⟨pl, hpl, hdecl⟩ := Option.bind_eq_some_iff.1 hid
      obtain ⟨path', hpath, hspot⟩ := h.spot hu hpl
      obtain ⟨-, hnone | hself⟩ := hu.sound.anchored.place (Function.update_self ..) hpl
      · rw [hnone] at hdecl
        cases hdecl
      · rw [hself] at hdecl
        cases hdecl
        rw [hp] at hpath
        cases hpath
        exact ⟨hdoc, _, hspot, rfl, by rw [hself]; rfl⟩
    · rintro ⟨-, spot, hspot, rfl, hdeclares⟩
      rw [h.spots] at hspot
      obtain ⟨pl, hpl, hmap⟩ := Option.bind_eq_some_iff.1 hspot
      obtain ⟨path', hpath, rfl⟩ := Option.map_eq_some_iff.1 hmap
      obtain ⟨-, hnone | hself⟩ := hu.sound.anchored.place (Function.update_self ..) hpl
      · rw [hnone] at hdeclares
        cases hdeclares
      · exact ⟨pl.scope, by rw [hpl, Option.bind_some, hself], hpath⟩

end

/-! ## Histories -/

/-- What an update leaves of its document. -/
def Update.content? : Update → Option (Schema × Document)
  | .sync s doc => some (s, doc)
  | .remove _ => none

/-- The documents that are in a namespace after some updates, each as it was put in last. -/
def current (history : List Update) : DocumentId → Option (Schema × Document) :=
  history.foldl (fun documents u => Function.update documents u.document u.content?) fun _ => none

@[simp] theorem current_append (history : List Update) (u : Update) :
    current (history ++ [u]) = Function.update (current history) u.document u.content? := by
  simp [current]

theorem Settled.holds_entered {n : Namespace} (hn : Settled n) (u : Update) {item : Item}
    (hi : item.document? = some u.document) :
    (u.entered n).names.Holds item ↔
      ∃ s doc, u.content? = some (s, doc) ∧ (listing s doc).Holds u.document item := by
  have hw := withdrawn_spec hn.anchored u.document
  cases u with
  | remove document =>
    refine iff_of_false (hw.not_holds hn hi) ?_
    rintro ⟨s, doc, hnone, -⟩
    cases hnone
  | sync s doc =>
    have hlisting : (∃ s' doc', (Update.sync s doc).content? = some (s', doc') ∧
        (listing s' doc').Holds doc.id item) ↔ (listing s doc).Holds doc.id item := by
      simp [Update.content?]
    refine Iff.trans ?_ hlisting.symm
    rcases Edit.enter_cases s doc (n.withdrawn doc.id) with
      ⟨hunbound, heq⟩ | ⟨root, el, hroot, hel, hb, heq⟩
    · rw [Update.entered, heq, listing_of_unbound s hunbound]
      exact iff_of_false (hw.not_holds hn hi) (Listing.not_holds_start doc)
    · rw [Update.entered, heq, listing_of_bound s hroot hel hb]
      obtain ⟨hu, ht, -⟩ := hn.abreast s hel (P := fun _ _ => True) trivial fun _ _ _ _ => trivial
      exact ht.holds_iff hu hi

/-- An update changes what is held from its own document, and nothing else. -/
theorem Settled.holds_edit {n : Namespace} (hn : Settled n) (u : Update) {item : Item}
    {document : DocumentId} (hi : item.document? = some document) :
    (u.edit n).names.Holds item ↔
      if document = u.document then
        ∃ s doc, u.content? = some (s, doc) ∧ (listing s doc).Holds document item
      else n.Holds item := by
  obtain ⟨hun, hsettled⟩ := hn.update u
  have hsound := (hn.entered u).1
  split
  · rename_i hdoc
    subst hdoc
    rw [(hun.sameIn hsound u.document).holds_iff hsound hsettled.toSound hi]
    exact hn.holds_entered u hi
  · rename_i hdoc
    exact (hn.sameIn u hdoc).holds_iff hn.toSound hsettled.toSound hi

theorem not_holds_empty {item : Item} {document : DocumentId} (hi : item.document? = some document) :
    ¬ Namespace.empty.Holds item := by
  cases item with
  | path path => cases hi
  | site path site =>
    rintro ⟨id, d, hd, -, hs⟩
    obtain ⟨-, rfl⟩ := descs_empty (live?_eq_some_iff.1 hd).1
    cases hs
  | constant name c =>
    rintro ⟨values, hvalues, -⟩
    cases hvalues
  | handle name path site =>
    rintro ⟨x, ⟨values, hvalues, -⟩, -⟩
    cases hvalues
  | scope element path =>
    rintro ⟨id, hid, -⟩
    cases hid
  | declared element path =>
    rintro ⟨id, hid, -⟩
    cases hid

theorem id_of_current {history : List Update} {document : DocumentId} {s : Schema} {doc : Document}
    (h : current history document = some (s, doc)) : doc.id = document := by
  induction history using List.reverseRecOn with
  | nil => cases h
  | append_singleton history u ih =>
    rw [current_append, Function.update_apply] at h
    split at h
    · rename_i hdoc
      cases u with
      | remove _ => cases h
      | sync _ _ =>
        cases h
        exact hdoc.symm
    · exact ih h

theorem holds_of_document (history : List Update) {item : Item} {document : DocumentId}
    (hi : item.document? = some document) :
    (after history).Holds item ↔
      ∃ s doc, current history document = some (s, doc) ∧ (listing s doc).Holds document item := by
  induction history using List.reverseRecOn with
  | nil =>
    refine iff_of_false (not_holds_empty hi) ?_
    rintro ⟨s, doc, hnone, -⟩
    cases hnone
  | append_singleton history u ih =>
    rw [after_append, (settled_after history).holds_edit u hi, current_append, Function.update_apply]
    split
    · rfl
    · exact ih

/-- The desc that an element declares lists the element among its sites. -/
theorem exists_site_of_declared? {history : List Update} {r : ElementRef} {id : DescId}
    (h : (after history).declared? r = some id) :
    ∃ d, (after history).live? id = some d ∧ ∃ site ∈ d.sites, site.element = r := by
  have hn := settled_after history
  obtain ⟨d, hd⟩ := (hn.hasSite_declared h).live hn.anchored
  obtain ⟨path, hpath⟩ := hn.tree.exists_path hd
  have hholds : (after history).Holds (.declared r path) := ⟨id, h, hpath⟩
  obtain ⟨s, doc, hcur, hdoc, spot, hspot, rfl, hdeclares⟩ := (holds_of_document history rfl).1 hholds
  obtain ⟨site, hsite, helement⟩ := listing_sited s doc _ spot hspot hdeclares
  have hr : site.element = r := by
    rw [helement]
    rw [Document.ref, id_of_current hcur]
  have hheld : (after history).Holds (.site spot.path site) :=
    (holds_of_document history rfl).2 ⟨s, doc, by rw [hr]; exact hcur, hsite⟩
  obtain ⟨id', d', hd', hpath', hmem⟩ := hheld
  have hsame := hn.tree.path?_injective hpath' hpath
  subst hsame
  exact ⟨d', hd', site, hmem, hr⟩

/-- A path is held when something is declared there. -/
theorem Settled.holds_path {n : Namespace} (hn : Settled n) (path : List String) :
    n.Holds (.path path) ↔ path = [] ∨ ∃ site, n.Holds (.site path site) := by
  constructor
  · rintro ⟨id, d, hd, hp⟩
    by_cases hroot : id = Namespace.root
    · subst hroot
      rw [hn.tree.path?_root] at hp
      cases hp
      exact .inl rfl
    · obtain ⟨hid, hl⟩ := live?_eq_some_iff.1 hd
      obtain ⟨site, hs⟩ := List.exists_mem_of_ne_nil _ (hn.declared hid hl hroot)
      exact .inr ⟨site, id, d, hd, hp, hs⟩
  · rintro (rfl | ⟨site, id, d, hd, hp, -⟩)
    · obtain ⟨d, hd, -⟩ := hn.tree.live_root
      exact ⟨_, d, hd, hn.tree.path?_root⟩
    · exact ⟨id, d, hd, hp⟩

theorem holds_after (history : List Update) (item : Item) :
    (after history).Holds item ↔ item = .path [] ∨
      ∃ document s doc, current history document = some (s, doc) ∧
        (listing s doc).Holds document item := by
  cases hi : item.document? with
  | some document =>
    rw [holds_of_document history hi]
    constructor
    · rintro ⟨s, doc, hcur, hholds⟩
      exact .inr ⟨document, s, doc, hcur, hholds⟩
    · rintro (rfl | ⟨other, s, doc, hcur, hholds⟩)
      · cases hi
      · have hid := id_of_current hcur
        subst hid
        rcases (listing_within s doc).document? hholds with hnone | hsome
        · rw [hnone] at hi
          cases hi
        · rw [hsome] at hi
          cases hi
          exact ⟨s, doc, hcur, hholds⟩
  | none =>
    obtain ⟨path, rfl⟩ : ∃ path, item = .path path := by
      cases item with
      | path path => exact ⟨path, rfl⟩
      | _ => cases hi
    rw [(settled_after history).holds_path]
    refine or_congr (by simp) ?_
    constructor
    · rintro ⟨site, hsite⟩
      obtain ⟨s, doc, hcur, hholds⟩ := (holds_of_document history rfl).1 hsite
      exact ⟨_, s, doc, hcur, site, hholds⟩
    · rintro ⟨document, s, doc, hcur, site, hsite⟩
      have hid := id_of_current hcur
      subst hid
      obtain ⟨id, el, -, rfl⟩ := (listing_within s doc).sites _ hsite
      exact ⟨_, (holds_of_document history rfl).2 ⟨s, doc, hcur, hsite⟩⟩

end Namespace
end UILayout
