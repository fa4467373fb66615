import UILayout.Proofs.Namespace.Entering

/-!
# UILayout.Proofs.Namespace.Listing

What one document declares when it is walked on its own, with no namespace at hand: everything is
listed under the names from the root down to it. This is what the namespace has to hold for every
document, whatever came before.

* `listing_within`: a document lists nothing but its own elements.
* `listing_sited`: an element that declares a path is listed as one of its sites.
-/

namespace UILayout
namespace Namespace

open Schema Markup

/-- One thing that a namespace holds, read as paths. -/
inductive Item where
  | path (path : List String)
  | site (path : List String) (site : Site)
  | constant (name : String) (c : Constant)
  | handle (name : String) (path : List String) (site : ElementRef)
  | scope (element : ElementRef) (path : List String)
  | declared (element : ElementRef) (path : List String)

/-- The document that something comes from; a path may come from several. -/
def Item.document? : Item → Option DocumentId
  | .path _ => none
  | .site _ s => some s.element.document
  | .constant _ c => some c.site.document
  | .handle _ _ element => some element.document
  | .scope element _ => some element.document
  | .declared element _ => some element.document

/-- Where an element stands. -/
structure Spot where
  path : List String
  declares : Bool
  deriving Repr

structure Listing where
  sites : List (List String × Site)
  constants : List Constant
  handles : List (String × List String × ElementRef)
  /-- By element. -/
  spots : Array (Option Spot)
  deriving Repr

namespace Listing

def start (doc : Document) : Listing := ⟨[], [], [], Array.replicate doc.size none⟩

def spot? (l : Listing) (id : ElementId) : Option Spot := (l.spots[id]?).join

def put (l : Listing) (id : ElementId) (spot : Spot) : Listing :=
  { l with spots := l.spots.setIfInBounds id (some spot) }

/-- An element declares a path. -/
def declare (l : Listing) (doc : Document) (id : ElementId) (e : Element) (path : List String) :
    Listing :=
  { l with sites := l.sites ++ [(path, Entering.siteOf doc id e)] }.put id ⟨path, true⟩

def constant (l : Listing) (id : ElementId) (c : Constant) (path : List String) : Listing :=
  { l with constants := l.constants ++ [c] }.put id ⟨path, false⟩

def handle (l : Listing) (doc : Document) (id : ElementId) (name : String) (path : List String) :
    Listing :=
  { l with handles := l.handles ++ [(name, path, doc.ref id)] }.put id ⟨path, false⟩

/-- Lists what one element means, given the path around it. -/
def add (s : Schema) (doc : Document) (l : Listing) (id : ElementId) (e : Element) (b : Binding)
    (path : List String) : Listing :=
  match Role.ofElement s e b with
  | .desc name _ => l.declare doc id e (path ++ [name])
  | .constant name value => l.constant id ⟨name, value.value, doc.ref id, value.valueSpan⟩ path
  | .handle name => l.handle doc id name path
  | .other => l.put id ⟨path, false⟩

/-- Lists an element that is bound and whose parent has been listed. -/
def step (s : Schema) (doc : Document) (l : Listing) (id : ElementId) : Listing :=
  match doc.element? id with
  | none => l
  | some e =>
    match e.binding?, e.parent?.bind l.spot? with
    | some b, some spot => l.add s doc id e b spot.path
    | _, _ => l

def Holds (l : Listing) (document : DocumentId) : Item → Prop
  | .path path => ∃ site, (path, site) ∈ l.sites
  | .site path site => (path, site) ∈ l.sites
  | .constant name c => c ∈ l.constants ∧ c.name = name
  | .handle name path site => (name, path, site) ∈ l.handles
  | .scope element path =>
    element.document = document ∧ ∃ spot, l.spot? element.element = some spot ∧ spot.path = path
  | .declared element path =>
    element.document = document ∧ ∃ spot, l.spot? element.element = some spot ∧ spot.path = path ∧
      spot.declares = true

end Listing

/-- All elements of a document listed, from its root on. -/
def listingFrom (s : Schema) (doc : Document) (root : ElementId) (e : Element) : Listing :=
  (doc.subtree root).tail.foldl (Listing.step s doc)
    ((Listing.start doc).declare doc root e [doc.name])

/-- What a document declares, if its root is bound. -/
def listing (s : Schema) (doc : Document) : Listing :=
  match doc.root? with
  | none => .start doc
  | some root =>
    match doc.element? root with
    | none => .start doc
    | some e => if e.binding?.isSome then listingFrom s doc root e else .start doc

theorem Listing.spot?_put (l : Listing) (id j : ElementId) (spot : Spot) :
    (l.put id spot).spot? j = if id = j ∧ id < l.spots.size then some spot else l.spot? j := by
  simp only [put, spot?, Array.getElem?_setIfInBounds]
  by_cases h : id = j
  · subst h
    by_cases hlt : id < l.spots.size
    · simp [hlt]
    · simp [hlt]
  · simp [h]

/-- Spots in which that of one element has been set. -/
theorem Listing.spot?_of_spots {l l' : Listing} {id : ElementId} {spot : Spot}
    (h : l'.spots = l.spots.setIfInBounds id (some spot)) (hlt : id < l.spots.size) (j : ElementId) :
    l'.spot? j = if id = j then some spot else l.spot? j := by
  have hput : l'.spot? j = (l.put id spot).spot? j := by rw [spot?, h, spot?, put]
  rw [hput, spot?_put]
  exact if_congr (and_iff_left hlt) rfl rfl

@[simp] theorem Listing.spot?_start (doc : Document) (id : ElementId) :
    (start doc).spot? id = none := by
  simp only [start, spot?, Array.getElem?_replicate]
  split <;> rfl

theorem Listing.not_holds_start (doc : Document) {document : DocumentId} {item : Item} :
    ¬ (start doc).Holds document item := by
  cases item with
  | path path => exact nofun
  | site path site => exact nofun
  | constant name c => exact nofun
  | handle name path site => exact nofun
  | scope element path =>
    rintro ⟨-, spot, hspot, -⟩
    simp at hspot
  | declared element path =>
    rintro ⟨-, spot, hspot, -⟩
    simp at hspot

theorem listing_of_bound (s : Schema) {doc : Document} {root : ElementId} {e : Element}
    (hroot : doc.root? = some root) (he : doc.element? root = some e)
    (hb : e.binding?.isSome = true) : listing s doc = listingFrom s doc root e := by
  simp [listing, hroot, he, hb]

theorem listing_of_unbound (s : Schema) {doc : Document}
    (h : ∀ root e, doc.root? = some root → doc.element? root = some e → e.binding? = none) :
    listing s doc = .start doc := by
  unfold listing
  split
  · rfl
  · rename_i root hroot
    split
    · rfl
    · rename_i e he
      rw [h root e hroot he]
      rfl

/-! ## Own elements only -/

/-- All that is listed stands in a document. -/
structure Listing.Within (l : Listing) (doc : Document) : Prop where
  sites : ∀ e ∈ l.sites, ∃ id el, doc.element? id = some el ∧ e.2 = Entering.siteOf doc id el
  constants : ∀ c ∈ l.constants, c.site.document = doc.id
  handles : ∀ h ∈ l.handles, h.2.2.document = doc.id

namespace Listing.Within

variable {l : Listing} {doc : Document}

theorem start (doc : Document) : (Listing.start doc).Within doc := ⟨nofun, nofun, nofun⟩

theorem declare (h : l.Within doc) {id : ElementId} {e : Element} (he : doc.element? id = some e)
    (path : List String) : (l.declare doc id e path).Within doc := by
  refine ⟨?_, h.constants, h.handles⟩
  intro x hx
  rcases List.mem_append.1 hx with hx | hx
  · exact h.sites x hx
  · rw [List.mem_singleton.1 hx]
    exact ⟨id, e, he, rfl⟩

theorem step (h : l.Within doc) (s : Schema) (id : ElementId) : (l.step s doc id).Within doc := by
  unfold Listing.step
  split
  · exact h
  · rename_i e he
    split
    · rename_i b spot _ _
      unfold Listing.add
      split
      · exact h.declare he _
      · refine ⟨h.sites, ?_, h.handles⟩
        intro c hc
        rcases List.mem_append.1 hc with hc | hc
        · exact h.constants c hc
        · rw [List.mem_singleton.1 hc]
          rfl
      · refine ⟨h.sites, h.constants, ?_⟩
        intro x hx
        rcases List.mem_append.1 hx with hx | hx
        · exact h.handles x hx
        · rw [List.mem_singleton.1 hx]
          rfl
      · exact ⟨h.sites, h.constants, h.handles⟩
    · exact h

theorem foldl (h : l.Within doc) (s : Schema) (elements : List ElementId) :
    (elements.foldl (Listing.step s doc) l).Within doc := by
  induction elements generalizing l with
  | nil => exact h
  | cons id rest ih => exact ih (h.step s id)

theorem document? (h : l.Within doc) {item : Item} (hi : l.Holds doc.id item) :
    item.document? = none ∨ item.document? = some doc.id := by
  cases item with
  | path path => exact .inl rfl
  | site path site =>
    obtain ⟨id, el, -, rfl⟩ := h.sites _ hi
    exact .inr rfl
  | constant name c => exact .inr (congrArg some (h.constants c hi.1))
  | handle name path site => exact .inr (congrArg some (h.handles _ hi))
  | scope element path => exact .inr (congrArg some hi.1)
  | declared element path => exact .inr (congrArg some hi.1)

end Listing.Within

theorem listing_within (s : Schema) (doc : Document) : (listing s doc).Within doc := by
  unfold listing
  split
  · exact .start doc
  · split
    · exact .start doc
    · rename_i e he
      split
      · exact ((Listing.Within.start doc).declare he _).foldl s _
      · exact .start doc

/-! ## What declares is listed -/

/-- An element that declares a path is listed as a site of the path. -/
def Listing.Sited (l : Listing) (doc : Document) : Prop :=
  ∀ (id : ElementId) (spot : Spot), l.spot? id = some spot → spot.declares = true →
    ∃ site, (spot.path, site) ∈ l.sites ∧ site.element = doc.ref id

namespace Listing.Sited

variable {l : Listing} {doc : Document}

theorem start (doc : Document) : (Listing.start doc).Sited doc := by
  intro id spot hspot
  rw [spot?_start] at hspot
  cases hspot

theorem put (h : l.Sited doc) {id : ElementId} {spot : Spot} {l' : Listing}
    (hspots : l'.spots = l.spots) (hsites : l.sites ⊆ l'.sites)
    (hspot : spot.declares = true → ∃ site, (spot.path, site) ∈ l'.sites ∧
      site.element = doc.ref id) : (l'.put id spot).Sited doc := by
  intro j other hother hdeclares
  rw [spot?_put] at hother
  split at hother
  · rename_i hid
    obtain ⟨rfl, -⟩ := hid
    cases hother
    exact hspot hdeclares
  · rw [spot?, hspots] at hother
    obtain ⟨site, hsite, helement⟩ := h j other hother hdeclares
    exact ⟨site, hsites hsite, helement⟩

theorem declare (h : l.Sited doc) (id : ElementId) (e : Element) (path : List String) :
    (l.declare doc id e path).Sited doc := by
  refine h.put rfl (List.subset_append_left _ _) fun _ => ⟨Entering.siteOf doc id e, ?_, rfl⟩
  exact List.mem_append_right _ List.mem_cons_self

theorem step (h : l.Sited doc) (s : Schema) (id : ElementId) : (l.step s doc id).Sited doc := by
  unfold Listing.step
  split
  · exact h
  · split
    · unfold Listing.add
      split
      · exact h.declare id _ _
      all_goals
        refine h.put rfl (List.Subset.refl _) fun hdeclares => ?_
        cases hdeclares
    · exact h

theorem foldl (h : l.Sited doc) (s : Schema) (elements : List ElementId) :
    (elements.foldl (Listing.step s doc) l).Sited doc := by
  induction elements generalizing l with
  | nil => exact h
  | cons id rest ih => exact ih (h.step s id)

end Listing.Sited

theorem listing_sited (s : Schema) (doc : Document) : (listing s doc).Sited doc := by
  unfold listing
  split
  · exact .start doc
  · split
    · exact .start doc
    · split
      · exact ((Listing.Sited.start doc).declare _ _ _).foldl s _
      · exact .start doc

end Namespace
end UILayout
