import UILayout.Proofs.Markup.InOrder
import UILayout.Proofs.Namespace.Behind

/-!
# UILayout.Proofs.Namespace.Once

The walk that lists what a document declares comes to every element once, in the order in which the
elements start. So the declarations of a path are those of different elements, in this order, and none
of them gets lost.

* `Listing.Walked.step`: what one element adds.
* `listing_walked`: the listing of a document in order.
* `Listing.Walked.mem_sitesAt_iff`, `Listing.Walked.ascending_sitesAt`: the declarations of a path.
* `TakenIn.mem_sitesIn_iff`, `TakenIn.ascending_sitesIn`: what a namespace has of them.
* `TakenIn.exists_declared`: what a document declares is the same in all namespaces that have it.
-/

namespace UILayout

open Schema Markup

/-- A document under another number. -/
def Markup.Document.renumber (doc : Document) (number : DocumentId) : Document :=
  { doc with id := number }

namespace Namespace

/-- Declarations of other elements are all put behind those that are there. -/
theorem foldl_addSite {own more : List Site} (h : ((own ++ more).map (·.element)).Nodup) :
    more.foldl addSite own = own ++ more := by
  induction more generalizing own with
  | nil => exact (List.append_nil own).symm
  | cons site rest ih =>
    have hnew : own.any (·.element = site.element) = false := by
      rw [List.map_append, List.map_cons, List.nodup_append] at h
      rw [List.any_eq_false]
      intro other hother heq
      exact h.2.2 _ (List.mem_map_of_mem hother) _ List.mem_cons_self (of_decide_eq_true heq)
    have hsite : addSite own site = own ++ [site] := by
      unfold addSite
      rw [hnew]
      rfl
    rw [List.foldl_cons, hsite, ih]
    · simp
    · simpa using h

namespace Listing

/-- What is listed after a walk over some elements: each of them that means something has its spot, and
is listed once for each spot that declares a path. -/
structure Walked (s : Schema) (doc : Document) (walked : List ElementId) (l : Listing) : Prop where
  size : l.spots.size = doc.size
  spots : ∀ {id : ElementId} {spot : Spot}, l.spot? id = some spot → id ∈ walked ∧
    ∃ e b, doc.element? id = some e ∧ e.binding? = some b ∧ (spot.declares = true →
      doc.root? = some id ∨ (s.slotKind b.slot).declares = true)
  sites : ∀ x ∈ l.sites, ∃ id e, doc.element? id = some e ∧ x.2 = Entering.siteOf doc id e ∧
    l.spot? id = some ⟨x.1, true⟩
  ascending : (l.sites.map (·.2.element.element)).Pairwise (· < ·)

namespace Walked

variable {s : Schema} {doc : Document} {walked : List ElementId} {l : Listing}

theorem start (s : Schema) (doc : Document) : (Listing.start doc).Walked s doc [] := by
  refine ⟨Array.size_replicate, fun h => ?_, nofun, .nil⟩
  rw [spot?_start] at h
  cases h

theorem mono (h : l.Walked s doc walked) {more : List ElementId} (hsub : walked ⊆ more) :
    l.Walked s doc more :=
  ⟨h.size, fun hspot => ⟨hsub (h.spots hspot).1, (h.spots hspot).2⟩, h.sites, h.ascending⟩

/-- An element behind all others gets a spot, and is listed if it declares a path. -/
theorem put (h : l.Walked s doc walked) {id : ElementId} (hid : ∀ j ∈ walked, j < id) {e : Element}
    {b : Binding} (he : doc.element? id = some e) (hb : e.binding? = some b) (spot : Spot)
    (hdeclares : spot.declares = true → doc.root? = some id ∨ (s.slotKind b.slot).declares = true)
    {l' : Listing} (hspots : l'.spots = l.spots)
    (hsites : l'.sites = l.sites ++
      if spot.declares then [(spot.path, Entering.siteOf doc id e)] else []) :
    (l'.put id spot).Walked s doc (walked ++ [id]) := by
  have hlt : id < l'.spots.size := by
    rw [hspots, h.size]
    exact Document.lt_size_of_element? he
  have hspot : ∀ j, (l'.put id spot).spot? j = if id = j then some spot else l.spot? j :=
    spot?_of_spots (by rw [Listing.put, hspots]) (hspots ▸ hlt)
  have hbefore : ∀ x ∈ l.sites, x.2.element.element < id := by
    intro x hx
    obtain ⟨j, e', -, heq, hj⟩ := h.sites x hx
    rw [heq]
    exact hid j (h.spots hj).1
  refine ⟨?_, fun {j found} hfound => ?_, fun x hx => ?_, ?_⟩
  · rw [Listing.put, Array.size_setIfInBounds, hspots, h.size]
  · rw [hspot] at hfound
    split at hfound
    · rename_i hj
      cases hfound
      subst hj
      exact ⟨List.mem_append_right _ (List.mem_singleton_self _), e, b, he, hb, hdeclares⟩
    · exact ⟨List.mem_append_left _ (h.spots hfound).1, (h.spots hfound).2⟩
  · rcases List.mem_append.1 (hsites ▸ hx : x ∈ l.sites ++ _) with hold | hnew
    · obtain ⟨j, e', he', heq, hj⟩ := h.sites x hold
      refine ⟨j, e', he', heq, ?_⟩
      rw [hspot, if_neg (Nat.ne_of_lt (hid j (h.spots hj).1)).symm]
      exact hj
    · split at hnew
      · rename_i hdecl
        rw [List.mem_singleton.1 hnew]
        refine ⟨id, e, he, rfl, ?_⟩
        rw [hspot, if_pos rfl, ← hdecl]
      · cases hnew
  · rw [show (l'.put id spot).sites = l'.sites from rfl, hsites, List.map_append]
    refine List.pairwise_append.2 ⟨h.ascending, ?_, fun i hi j hj => ?_⟩
    · split
      · exact List.pairwise_singleton _ _
      · exact .nil
    · obtain ⟨x, hx, rfl⟩ := List.mem_map.1 hi
      obtain ⟨y, hy, rfl⟩ := List.mem_map.1 hj
      split at hy
      · rw [List.mem_singleton.1 hy]
        exact hbefore x hx
      · cases hy

/-- A step over an element behind all others. -/
theorem step (h : l.Walked s doc walked) {id : ElementId} (hid : ∀ j ∈ walked, j < id) :
    (l.step s doc id).Walked s doc (walked ++ [id]) := by
  have hskip := h.mono (List.subset_append_left walked [id])
  unfold Listing.step
  split
  · exact hskip
  · rename_i e he
    split
    · rename_i b spot hb _
      unfold Listing.add
      split
      · rename_i name kind hrole
        refine h.put hid he hb ⟨spot.path ++ [name], true⟩ (fun _ => .inr ?_) rfl rfl
        rw [← DescKind.isSome_ofSlot?, Role.ofSlot?_of_desc hrole]
        rfl
      all_goals
        exact h.put hid he hb ⟨spot.path, false⟩ nofun rfl (List.append_nil _).symm
    · exact hskip

theorem foldl (h : l.Walked s doc walked) {ids : List ElementId}
    (hids : (walked ++ ids).Pairwise (· < ·)) :
    (ids.foldl (Listing.step s doc) l).Walked s doc (walked ++ ids) := by
  induction ids generalizing walked l with
  | nil => rwa [List.append_nil]
  | cons id rest ih =>
    rw [List.append_cons] at hids ⊢
    refine ih (h.step fun j hj => ?_) hids
    exact (List.pairwise_append.1 (List.pairwise_append.1 hids).1).2.2 j hj id (List.mem_singleton_self _)

end Walked

end Listing

/-- A document whose elements start in the order of their numbers is listed in this order. -/
theorem listing_walked {doc : Document} (h : doc.InOrder) (s : Schema) :
    (listing s doc).Walked s doc doc.descendants := by
  have hstart := (Listing.Walked.start s doc).mono (List.nil_subset doc.descendants)
  unfold listing
  split
  · exact hstart
  · rename_i root hroot
    split
    · exact hstart
    · rename_i e he
      split
      · rename_i hbound
        obtain ⟨b, hb⟩ := Option.isSome_iff_exists.1 hbound
        have hwalk : doc.descendants = [root] ++ (doc.subtree root).tail :=
          Document.descendants_eq_cons hroot
        rw [hwalk]
        have hfirst : ∀ j ∈ [], j < root := fun j hj => absurd hj List.not_mem_nil
        have hrooted : ((Listing.start doc).declare doc root e [doc.name]).Walked s doc [root] :=
          (Listing.Walked.start s doc).put hfirst he hb ⟨[doc.name], true⟩ (fun _ => .inl hroot) rfl rfl
        exact hrooted.foldl (hwalk ▸ h.ascending_descendants)
      · exact hstart

namespace Listing.Walked

variable {s : Schema} {doc : Document} {walked : List ElementId} {l : Listing}

theorem ascending_at (h : l.Walked s doc walked) (path : List String) :
    ((l.sites.filter (·.1 = path)).map (·.2)).Pairwise fun x y => x.element.element < y.element.element := by
  have hsorted := List.pairwise_map.1 h.ascending
  exact List.pairwise_map.2 (hsorted.sublist List.filter_sublist)

/-- No declaration of a path is left out. -/
theorem sitesAt_eq (h : l.Walked s doc walked) (path : List String) :
    l.sitesAt path = (l.sites.filter (·.1 = path)).map (·.2) := by
  refine (foldl_addSite ?_).trans (List.nil_append _)
  refine List.pairwise_map.2 ((h.ascending_at path).imp fun {x y} hlt heq => ?_)
  rw [heq] at hlt
  exact Nat.lt_irrefl _ hlt

/-- The declarations of a path come in the order of the elements. -/
theorem ascending_sitesAt (h : l.Walked s doc walked) (path : List String) :
    (l.sitesAt path).Pairwise fun x y => x.element.element < y.element.element :=
  h.sitesAt_eq path ▸ h.ascending_at path

theorem mem_sitesAt_iff (h : l.Walked s doc walked) (hsited : l.Sited doc) {path : List String}
    {site : Site} : site ∈ l.sitesAt path ↔ ∃ id e, l.spot? id = some ⟨path, true⟩ ∧
      doc.element? id = some e ∧ site = Entering.siteOf doc id e := by
  rw [h.sitesAt_eq]
  constructor
  · intro hmem
    obtain ⟨x, hx, rfl⟩ := List.mem_map.1 hmem
    obtain ⟨hx, hpath⟩ := List.mem_filter.1 hx
    obtain ⟨id, e, he, hsite, hspot⟩ := h.sites x hx
    exact ⟨id, e, of_decide_eq_true hpath ▸ hspot, he, hsite⟩
  · rintro ⟨id, e, hspot, he, rfl⟩
    obtain ⟨site, hsite, helement⟩ := hsited id _ hspot rfl
    obtain ⟨j, e', he', heq, -⟩ := h.sites _ hsite
    have hj : j = id := by
      rw [show site = Entering.siteOf doc j e' from heq] at helement
      exact (ElementRef.mk.inj helement).2
    subst hj
    rw [he] at he'
    cases he'
    exact List.mem_map.2 ⟨_, List.mem_filter.2 ⟨hsite, decide_eq_true rfl⟩, heq⟩

end Listing.Walked

/-! ## The number of the document -/

section

variable (doc : Document) (number : DocumentId)

theorem subtree_renumber (id : ElementId) : (doc.renumber number).subtree id = doc.subtree id := by
  induction id using Document.subtree.induct doc with
  | case1 id ih =>
    rw [Document.subtree_eq_flatMap, Document.subtree_eq_flatMap doc]
    exact congrArg (id :: ·) (List.flatMap_congr ih)

theorem Listing.spots_step {l l' : Listing} (h : l.spots = l'.spots) (s : Schema) (id : ElementId) :
    (l.step s (doc.renumber number) id).spots = (l'.step s doc id).spots := by
  have hspot : l.spot? = l'.spot? := by
    funext j
    rw [spot?, h, spot?]
  have hput : ∀ spot, l.spots.setIfInBounds id spot = l'.spots.setIfInBounds id spot := fun spot => by rw [h]
  unfold Listing.step
  rw [show (doc.renumber number).element? id = doc.element? id from rfl, hspot]
  split
  · exact h
  · split
    · unfold Listing.add
      split <;> exact hput _
    · exact h

/-- Where its elements stand does not depend on the number that a document has. -/
theorem spots_listing_renumber (s : Schema) :
    (listing s (doc.renumber number)).spots = (listing s doc).spots := by
  have run : ∀ (ids : List ElementId) (l l' : Listing), l.spots = l'.spots →
      (ids.foldl (Listing.step s (doc.renumber number)) l).spots =
        (ids.foldl (Listing.step s doc) l').spots := by
    intro ids
    induction ids with
    | nil => exact fun _ _ h => h
    | cons id rest ih => exact fun l l' h => ih _ _ (Listing.spots_step doc number h s id)
  unfold listing listingFrom
  rw [show (doc.renumber number).root? = doc.root? from rfl]
  split
  · rfl
  · rw [show (doc.renumber number).element? = doc.element? from rfl]
    split
    · rfl
    · split
      · rw [subtree_renumber]
        exact run _ _ _ rfl
      · rfl

end

/-! ## What a namespace has of it -/

/-- A namespace has taken in a document, the elements of which start in the order of their numbers. -/
structure TakenIn (n : Namespace) (s : Schema) (doc : Document) : Prop where
  settled : Settled n
  mirrors : Mirrors n s doc
  owns : Owns n doc.id (listing s doc)
  order : doc.InOrder

namespace TakenIn

variable {n n' : Namespace} {s : Schema} {doc : Document} {id : ElementId} {desc : DescId}

theorem walked (h : n.TakenIn s doc) : (listing s doc).Walked s doc doc.descendants :=
  listing_walked h.order s

theorem declared?_iff (h : n.TakenIn s doc) {path : List String} (hpath : n.path? desc = some path)
    (id : ElementId) :
    n.declared? (doc.ref id) = some desc ↔ (listing s doc).spot? id = some ⟨path, true⟩ := by
  have hitem := h.mirrors (.declared (doc.ref id) path) rfl
  constructor
  · intro hdeclared
    obtain ⟨-, spot, hspot, rfl, hdeclares⟩ := hitem.1 ⟨desc, hdeclared, hpath⟩
    rw [← hdeclares]
    exact hspot
  · intro hspot
    obtain ⟨other, hdeclared, hother⟩ := hitem.2 ⟨rfl, _, hspot, rfl, rfl⟩
    rw [hdeclared, h.settled.tree.path?_injective hother hpath]

theorem live_of_declared? (h : n.TakenIn s doc) (hdeclared : n.declared? (doc.ref id) = some desc) :
    ∃ d path, n.live? desc = some d ∧ n.path? desc = some path := by
  obtain ⟨d, hd⟩ := (h.settled.hasSite_declared hdeclared).live h.settled.anchored
  obtain ⟨path, hpath⟩ := h.settled.tree.exists_path hd
  exact ⟨d, path, hd, hpath⟩

/-- An element that declares something is one that the walk comes to. -/
theorem bound_of_declared? (h : n.TakenIn s doc) (hdeclared : n.declared? (doc.ref id) = some desc) :
    id ∈ doc.descendants ∧ ∃ e b, doc.element? id = some e ∧ e.binding? = some b ∧
      (doc.root? = some id ∨ (s.slotKind b.slot).declares = true) := by
  obtain ⟨d, path, -, hpath⟩ := h.live_of_declared? hdeclared
  obtain ⟨hid, e, b, he, hb, hdeclares⟩ := h.walked.spots ((h.declared?_iff hpath id).1 hdeclared)
  exact ⟨hid, e, b, he, hb, hdeclares rfl⟩

theorem sitesIn_eq (h : n.TakenIn s doc) {d : Desc} (hd : n.live? desc = some d) {path : List String}
    (hpath : n.path? desc = some path) : d.sitesIn doc.id = (listing s doc).sitesAt path := by
  rw [← h.owns.sites hpath, sitesAt_of_descs (live?_eq_some_iff.1 hd).1]
  rfl

/-- A desc has a declaration for every element of the document that declares it. -/
theorem mem_sitesIn_iff (h : n.TakenIn s doc) {d : Desc} (hd : n.live? desc = some d) (site : Site) :
    site ∈ d.sitesIn doc.id ↔ ∃ id e, n.declared? (doc.ref id) = some desc ∧
      doc.element? id = some e ∧ site = Entering.siteOf doc id e := by
  obtain ⟨path, hpath⟩ := h.settled.tree.exists_path hd
  simp only [h.sitesIn_eq hd hpath, h.walked.mem_sitesAt_iff (listing_sited s doc), h.declared?_iff hpath]

/-- The declarations that a desc has from the document are in the order of the elements. -/
theorem ascending_sitesIn (h : n.TakenIn s doc) {d : Desc} (hd : n.live? desc = some d) :
    (d.sitesIn doc.id).Pairwise fun x y => x.element.element < y.element.element := by
  obtain ⟨path, hpath⟩ := h.settled.tree.exists_path hd
  rw [h.sitesIn_eq hd hpath]
  exact h.walked.ascending_sitesAt path

/-- In another namespace that has taken in the document, under whatever number, an element declares the
desc with the same path. -/
theorem exists_declared {number : DocumentId} (h : n.TakenIn s doc)
    (h' : n'.TakenIn s (doc.renumber number)) (hdeclared : n.declared? (doc.ref id) = some desc) :
    ∃ desc', n'.declared? ((doc.renumber number).ref id) = some desc' ∧
      ∀ other, n'.declared? ((doc.renumber number).ref other) = some desc' ↔
        n.declared? (doc.ref other) = some desc := by
  obtain ⟨d, path, -, hpath⟩ := h.live_of_declared? hdeclared
  have hspots : (listing s (doc.renumber number)).spot? = (listing s doc).spot? := by
    funext j
    rw [Listing.spot?, spots_listing_renumber, Listing.spot?]
  have hspot := (h.declared?_iff hpath id).1 hdeclared
  rw [← hspots] at hspot
  obtain ⟨desc', hdeclared', hpath'⟩ := (h'.mirrors (.declared ((doc.renumber number).ref id) path) rfl).2
    ⟨rfl, _, hspot, rfl, rfl⟩
  refine ⟨desc', hdeclared', fun other => ?_⟩
  rw [h'.declared?_iff hpath', h.declared?_iff hpath, hspots]

end TakenIn

end Namespace
end UILayout
