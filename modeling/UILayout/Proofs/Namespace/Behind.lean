import UILayout.Proofs.Namespace.Resync

/-!
# UILayout.Proofs.Namespace.Behind

What bringing the namespace up to date with an unchanged document does to lookups. The document takes
back what it has put in and puts it in again, behind what the other documents have put in; and where
several documents register one name, or declare one desc, the first one decides.

* `owns_after`: what a document has put in stands in the order of its listing.
* `movedBehind_sync`: what comes of an unchanged document.
* `MovedBehind.lookupsKept_iff`: lookups stay just when the document comes first only where it is alone.
-/

namespace UILayout
namespace Namespace

open Schema Markup

/-! ## Lists -/

section

variable {α β : Type} {site : α → ElementRef} {document : DocumentId}

/-- Some values, those that stand in a document behind all others. -/
def behind (site : α → ElementRef) (document : DocumentId) (values : List α) : List α :=
  values.filter (fun v => (site v).document ≠ document) ++
    values.filter (fun v => (site v).document = document)

/-- The first value stays the first one unless it moves behind another one. -/
theorem head?_behind (values : List α) :
    (behind site document values).head? = values.head? ↔
      ∀ v, values.head? = some v → (site v).document = document →
        ∀ w ∈ values, (site w).document = document := by
  cases values with
  | nil => simp [behind]
  | cons v rest =>
    by_cases hv : (site v).document = document
    · have hothers : (v :: rest).filter (fun w => (site w).document ≠ document) = [] ↔
          ∀ w ∈ v :: rest, (site w).document = document := by
        simp [List.filter_eq_nil_iff]
      have hself : (v :: rest).filter (fun w => (site w).document = document) =
          v :: rest.filter fun w => (site w).document = document :=
        List.filter_cons_of_pos (decide_eq_true hv)
      rw [behind, hself]
      constructor
      · intro hhead u hu _
        rw [← hothers]
        by_contra hne
        rw [List.head?_append_of_ne_nil _ hne] at hhead
        obtain ⟨-, hmem⟩ := List.mem_filter.1 (List.mem_of_mem_head? hhead)
        exact of_decide_eq_true hmem hv
      · intro hall
        rw [hothers.2 (hall v rfl hv)]
        rfl
    · simp [behind, hv]

theorem findSome?_filter_of_none {f : α → Option β} {p : α → Bool} {values : List α}
    (h : (values.filter fun v => !p v).findSome? f = none) :
    (values.filter p).findSome? f = values.findSome? f := by
  induction values with
  | nil => rfl
  | cons v rest ih =>
    cases hp : p v with
    | true =>
      rw [List.filter_cons_of_neg (by simp [hp])] at h
      rw [List.filter_cons_of_pos hp, List.findSome?_cons, List.findSome?_cons, ih h]
    | false =>
      rw [List.filter_cons_of_pos (by simp [hp]), List.findSome?_cons] at h
      rw [List.filter_cons_of_neg (by simp [hp]), List.findSome?_cons]
      cases hf : f v with
      | some b =>
        rw [hf] at h
        cases h
      | none =>
        rw [hf] at h
        exact ih h

/-- What is found first stays the same unless the values that stay in front have something else. -/
theorem findSome?_behind (f : α → Option β) (values : List α) :
    (behind site document values).findSome? f = values.findSome? f ↔
      ∀ b, (values.filter fun v => (site v).document ≠ document).findSome? f = some b →
        values.findSome? f = some b := by
  rw [behind, List.findSome?_append]
  cases hothers : (values.filter fun v => (site v).document ≠ document).findSome? f with
  | some b => simp [eq_comm]
  | none =>
    simp only [Option.none_or, reduceCtorEq, false_implies, implies_true, iff_true]
    refine findSome?_filter_of_none ?_
    simpa using hothers

theorem filter_append_own {others own : List α} (hown : ∀ v ∈ own, (site v).document = document) :
    ((others.filter fun v => (site v).document ≠ document) ++ own).filter
      (fun v => (site v).document = document) = own := by
  have hself : own.filter (fun v => (site v).document = document) = own :=
    List.filter_eq_self.2 fun v hv => decide_eq_true (hown v hv)
  rw [List.filter_append, hself, List.filter_filter]
  simp

theorem filter_append_other {other : DocumentId} (hne : other ≠ document) {values own : List α}
    (hown : ∀ v ∈ own, (site v).document = other) :
    ((values.filter fun v => (site v).document ≠ other) ++ own).filter
      (fun v => (site v).document = document) =
        values.filter fun v => (site v).document = document := by
  have hnone : own.filter (fun v => (site v).document = document) = [] := by
    rw [List.filter_eq_nil_iff]
    intro v hv heq
    exact hne ((hown v hv).symm.trans (of_decide_eq_true heq))
  rw [List.filter_append, hnone, List.append_nil, List.filter_filter]
  refine List.filter_congr fun v _ => ?_
  by_cases h : (site v).document = document
  · simp [h, hne.symm]
  · simp [h]

end

/-! ## What a document has put in -/

section

variable {n m : Namespace} {document : DocumentId} {l : Listing}

/-- What a document has put in stands in the order of a listing, whatever stands between. -/
structure Owns (n : Namespace) (document : DocumentId) (l : Listing) : Prop where
  sites : ∀ {id : DescId} {path : List String}, n.path? id = some path →
    (n.sitesAt id).filter (·.element.document = document) = l.sitesAt path
  constants : ∀ name, (valuesAt n.constants name).filter (·.site.document = document) =
    l.constants.filter (·.name = name)
  handles : ∃ hs, List.Forall₂ (n.HandleIs document) hs l.handles ∧ ∀ name,
    (valuesAt n.handles name).filter (·.site.document = document) = hs.filter (·.name = name)

theorem Arranged.valuesAt_constants (h : Arranged n m document l) (hn : Settled n) (name : String) :
    valuesAt m.constants name =
      (valuesAt n.constants name).filter (·.site.document ≠ document) ++
        l.constants.filter (·.name = name) := by
  rw [h.constants, valuesAt_enrol, valuesAt_dropFrom hn.constants.distinct]

theorem Arranged.valuesAt_handles (h : Arranged n m document l) (hn : Settled n) :
    ∃ hs, List.Forall₂ (m.HandleIs document) hs l.handles ∧ ∀ name, valuesAt m.handles name =
      (valuesAt n.handles name).filter (·.site.document ≠ document) ++ hs.filter (·.name = name) := by
  obtain ⟨hs, hlisted, heq⟩ := h.handles
  refine ⟨hs, hlisted, fun name => ?_⟩
  rw [heq, valuesAt_enrol, valuesAt_dropFrom hn.handles.distinct]

theorem Arranged.owns (h : Arranged n m document l) (hn : Settled n) (hl : l.StandsIn document) :
    Owns m document l := by
  obtain ⟨hs, hlisted, hvalues⟩ := h.valuesAt_handles hn
  refine ⟨fun hp => ?_, fun name => ?_, hs, hlisted, fun name => ?_⟩
  · rw [h.sites hp]
    exact filter_append_own fun site hsite => hl.sitesAt hsite
  · rw [h.valuesAt_constants hn]
    exact filter_append_own fun c hc => hl.constants c (List.mem_of_mem_filter hc)
  · rw [hvalues]
    exact filter_append_own fun x hx =>
      document_of_handleIs hlisted hl.handles x (List.mem_of_mem_filter hx)

/-- An update leaves in order what another document has put in. -/
theorem Owns.other (h : Owns n document l) (hn : Settled n) {u : Update} (hne : u.document ≠ document)
    (hlisted : ∀ path site, (path, site) ∈ l.sites → n.Holds (.site path site))
    (hl : l.StandsIn document) : Owns (u.edit n).names document l := by
  have hm : Settled (u.edit n).names := (hn.update u).2
  have hsame : SameIn document n (u.edit n).names := hn.sameIn u hne.symm
  have harranged := hn.arranged_edit u
  have hin := u.standsIn_listing
  have keep : ∀ {id : DescId} {path : List String}, n.DeclaresAt document id path →
      (u.edit n).names.DeclaresAt document id path := fun ha => ha.sameIn hsame hn.toSound hm.toSound
  refine ⟨fun {id path} hp => ?_, fun name => ?_, ?_⟩
  · rw [harranged.sites hp, filter_append_other hne fun site hsite => hin.sitesAt hsite]
    cases hd : n.live? id with
    | some d =>
      obtain ⟨d', hd'⟩ := live_of_path? hp
      rw [hn.tree.path?_keeps hm.tree hsame.keeps hd hd'] at hp
      exact h.sites hp
    | none =>
      -- what the document declares has stayed in the tree, so it declares nothing here
      rw [sitesAt_eq_nil hn.toSound hd, List.filter_nil, eq_comm]
      by_contra hne'
      obtain ⟨site, hsite⟩ := Listing.exists_site hne'
      obtain ⟨other, d, hother, hpath, hmem⟩ := hlisted path site hsite
      have hdoc : site.element.document = document := hl.sites _ hsite
      have hat := keep ⟨hpath, d, (live?_eq_some_iff.1 hother).1, site, hmem, hdoc⟩
      have hid := hm.tree.path?_injective hat.1 hp
      subst hid
      rw [hd] at hother
      cases hother
  · rw [harranged.valuesAt_constants hn,
      filter_append_other hne fun c hc => hin.constants c (List.mem_of_mem_filter hc), h.constants]
  · obtain ⟨hs, hlistedHandles, hvalues⟩ := h.handles
    obtain ⟨hs', hlisted', hvalues'⟩ := harranged.valuesAt_handles hn
    refine ⟨hs, hlistedHandles.imp fun _ _ hh => hh.imp keep, fun name => ?_⟩
    rw [hvalues', filter_append_other hne fun x hx =>
      document_of_handleIs hlisted' hin.handles x (List.mem_of_mem_filter hx), hvalues]

theorem owns_after {history : List Update} {s : Schema} {doc : Document}
    (h : current history document = some (s, doc)) :
    Owns (after history) document (listing s doc) := by
  induction history using List.reverseRecOn with
  | nil => cases h
  | append_singleton history u ih =>
    have hn := settled_after history
    rw [current_append, Function.update_apply] at h
    rw [after_append]
    split at h
    · rename_i hdoc
      cases u with
      | remove _ => cases h
      | sync s' doc' =>
        cases h
        rw [hdoc]
        exact (hn.arranged_edit (.sync s doc)).owns hn (listing_within s doc).standsIn
    · rename_i hdoc
      have hid := id_of_current h
      subst hid
      have hl := (listing_within s doc).standsIn
      refine (ih h).other hn (Ne.symm hdoc) (fun path site hsite => ?_) hl
      have hmirrors := mirrors_of_current h
      exact (hmirrors (.site path site) (congrArg some (hl.sites _ hsite))).2 hsite

/-! ## What moves -/

/-- `m` is `n` with all that a document has put in behind all else. -/
structure MovedBehind (n m : Namespace) (document : DocumentId) : Prop where
  live : ∀ id, (∃ d, m.live? id = some d) ↔ ∃ d, n.live? id = some d
  sites : ∀ id, m.sitesAt id = behind (·.element) document (n.sitesAt id)
  constants : ∀ name, valuesAt m.constants name = behind (·.site) document (valuesAt n.constants name)
  handles : ∀ name, valuesAt m.handles name = behind (·.site) document (valuesAt n.handles name)

/-- A document that the namespace is up to date with moves behind the others, and nothing else
happens. -/
theorem movedBehind_sync {history : List Update} {s : Schema} {doc : Document}
    (h : current history doc.id = some (s, doc)) :
    MovedBehind (after history) ((after history).sync s doc).names doc.id := by
  have hn := settled_after history
  have hm : Settled ((after history).sync s doc).names := (hn.update (.sync s doc)).2
  have hmirrors := mirrors_of_current h
  have hunmoved := hn.unmoved_sync hmirrors
  have harranged : Arranged (after history) ((after history).sync s doc).names doc.id (listing s doc) :=
    hn.arranged_edit (.sync s doc)
  have howns := owns_after h
  have hpath := hunmoved.path? hn.tree hm.tree
  refine ⟨hunmoved.live?_iff, fun id => ?_, fun name => ?_, fun name => ?_⟩
  · cases hd : (after history).live? id with
    | some d =>
      obtain ⟨path, hp⟩ := hn.tree.exists_path hd
      rw [behind, howns.sites hp]
      exact harranged.sites ((hpath id).trans hp)
    | none =>
      rw [sitesAt_eq_nil hn.toSound hd, hunmoved.sitesAt_eq_nil hm.toSound hd]
      rfl
  · rw [behind, howns.constants]
    exact harranged.valuesAt_constants hn name
  · obtain ⟨hs, hlisted, hvalues⟩ := howns.handles
    obtain ⟨hs', hlisted', hvalues'⟩ := harranged.valuesAt_handles hn
    -- the handles lead to the same descs, as these have kept their paths
    have hsame : hs' = hs := handles_unique hm.tree hlisted' (hlisted.imp fun _ _ hh => hh.imp
      fun {id _} => hmirrors.declaresAt (hn.mirrors_sync s doc) hm.tree (hpath id))
    rw [behind, hvalues, hvalues', hsame]

/-! ## Lookups -/

/-- All that is looked up by name, and the types of all descs, are the same. -/
structure LookupsKept (n m : Namespace) : Prop where
  constants : ∀ name, m.constant? name = n.constant? name
  handles : ∀ name, m.handle? name = n.handle? name
  types : ∀ {id : DescId} {d : Desc}, n.live? id = some d →
    ∃ d', m.live? id = some d' ∧ d'.type? = d.type?

/-- Where a document comes first it is alone: no other document has registered the name too, and the
others that declare the desc leave it the type that it has. -/
structure FirstAlone (n : Namespace) (document : DocumentId) : Prop where
  constants : ∀ {name : String} {c : Constant}, n.constant? name = some c → c.site.document = document →
    ∀ other, Lists n.constants name other → other.site.document = document
  handles : ∀ {name : String} {h : Handle}, n.handle? name = some h → h.site.document = document →
    ∀ other, Lists n.handles name other → other.site.document = document
  types : ∀ {id : DescId} {d : Desc} {type : ComplexTypeId}, n.live? id = some d →
    (d.sites.filter fun site => site.element.document ≠ document).findSome? (·.type?) = some type →
      d.type? = some type

theorem mem_valuesAt {α : Type} {r : NameMap (List α)} {name : String} {value : α} :
    value ∈ valuesAt r name ↔ Lists r name value := by
  unfold valuesAt Lists
  cases r.get? name <;> simp

theorem constant?_eq_head? (n : Namespace) (name : String) :
    n.constant? name = (valuesAt n.constants name).head? := by
  unfold constant? valuesAt
  cases n.constants.get? name <;> rfl

/-- The desc of a handle is always in the tree. -/
theorem handle?_eq_head? {filed : DocumentId → Option Contribution} (hn : Sound n filed) (name : String) :
    n.handle? name = (valuesAt n.handles name).head? := by
  have hfind : n.handle? name =
      (valuesAt n.handles name).find? fun h => (n.live? h.desc).isSome := by
    unfold handle? valuesAt
    cases n.handles.get? name <;> rfl
  rw [hfind]
  cases hvalues : valuesAt n.handles name with
  | nil => rfl
  | cons h rest =>
    have hlists : Lists n.handles name h := mem_valuesAt.1 (hvalues ▸ List.mem_cons_self)
    obtain ⟨d, hd⟩ := (hn.anchored.handle hlists).live hn.anchored
    rw [List.find?_cons_of_pos (by rw [hd]; rfl)]
    rfl

theorem MovedBehind.lookupsKept_iff (h : MovedBehind n m document) (hn : Settled n) (hm : Settled m) :
    LookupsKept n m ↔ FirstAlone n document := by
  have hconstants : (∀ name, m.constant? name = n.constant? name) ↔
      ∀ name c, n.constant? name = some c → c.site.document = document →
        ∀ other, Lists n.constants name other → other.site.document = document := by
    refine forall_congr' fun name => ?_
    simp only [constant?_eq_head?, h.constants, head?_behind, mem_valuesAt]
  have hhandles : (∀ name, m.handle? name = n.handle? name) ↔
      ∀ name x, n.handle? name = some x → x.site.document = document →
        ∀ other, Lists n.handles name other → other.site.document = document := by
    refine forall_congr' fun name => ?_
    simp only [handle?_eq_head? hn.toSound, handle?_eq_head? hm.toSound, h.handles, head?_behind,
      mem_valuesAt]
  have htypes : ∀ {id : DescId} {d : Desc}, n.live? id = some d →
      ((∃ d', m.live? id = some d' ∧ d'.type? = d.type?) ↔ ∀ type,
        (d.sites.filter fun site => site.element.document ≠ document).findSome? (·.type?) = some type →
          d.type? = some type) := by
    intro id d hd
    obtain ⟨d', hd'⟩ := (h.live id).2 ⟨d, hd⟩
    have hsites := h.sites id
    rw [sitesAt_of_descs (live?_eq_some_iff.1 hd').1, sitesAt_of_descs (live?_eq_some_iff.1 hd).1]
      at hsites
    have htype : d'.type? = (behind (·.element) document d.sites).findSome? (·.type?) := by
      rw [← hsites]
      rfl
    simp only [hd', Option.some.injEq, exists_eq_left', htype]
    exact findSome?_behind _ _
  constructor
  · intro hkept
    exact ⟨fun {name c} => hconstants.1 hkept.constants name c,
      fun {name x} => hhandles.1 hkept.handles name x,
      fun {id d type} hd => (htypes hd).1 (hkept.types hd) type⟩
  · intro hfirst
    exact ⟨hconstants.2 fun name c => hfirst.constants, hhandles.2 fun name x => hfirst.handles,
      fun {id d} hd => (htypes hd).2 fun type => hfirst.types hd⟩

end

end Namespace
end UILayout
