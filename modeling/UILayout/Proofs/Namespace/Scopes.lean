import UILayout.Proofs.Markup.Tree
import UILayout.Proofs.Namespace.Resync

/-!
# UILayout.Proofs.Namespace.Scopes

The scopes of elements. The walk that lists a document goes on below bound elements only, and every
element that it comes to has a scope: the desc that it declares, or else the scope of its parent. So the
scope of a bound element is what the nearest element around it declares. An element that is not bound has
no scope, although there is always an element around it that declares something.

* `Listing.Spotted.step`, `listing_spotted`: which elements have a place in the listing, and which.
* `scope?_eq_enclosing?`: the scopes of all elements.
-/

namespace UILayout

open Schema Markup

namespace Markup.Document

def isBound (doc : Document) (id : ElementId) : Bool := (doc.element? id).any (·.binding?.isSome)

theorem isBound_iff {doc : Document} {id : ElementId} :
    doc.isBound id = true ↔ ∃ e b, doc.element? id = some e ∧ e.binding? = some b := by
  simp [isBound, Option.any_eq_true, Option.isSome_iff_exists]

/-- The schema knows the parents of all elements that it knows. -/
def BoundAbove (doc : Document) : Prop :=
  ∀ id p, doc.parent? id = some p → doc.isBound id = true → doc.isBound p = true

end Markup.Document

namespace Namespace

/-! ## The listing -/

namespace Listing

/-- Putting an element into the listing gives it a spot. One that declares nothing has the path of what
is around it. -/
theorem exists_spots_add (s : Schema) (doc : Document) (l : Listing) (id : ElementId) (e : Element)
    (b : Binding) (path : List String) : ∃ spot : Spot,
      (l.add s doc id e b path).spots = l.spots.setIfInBounds id (some spot) ∧
        (spot.declares = false → spot.path = path) := by
  unfold Listing.add
  split
  · exact ⟨⟨_, true⟩, rfl, nofun⟩
  all_goals exact ⟨⟨path, false⟩, rfl, fun _ => rfl⟩

theorem spot?_step_of_ne (s : Schema) (doc : Document) (l : Listing) {id j : ElementId} (hne : id ≠ j) :
    (l.step s doc id).spot? j = l.spot? j := by
  unfold Listing.step
  split
  · rfl
  · rename_i e _
    split
    · rename_i b above _ _
      obtain ⟨spot, hspots, -⟩ := l.exists_spots_add s doc id e b above.path
      rw [spot?, hspots, Array.getElem?_setIfInBounds_ne hne, spot?]
    · rfl

/-- A walk leaves the spots of all elements alone that it does not come to. -/
theorem spot?_foldl_of_not_mem (s : Schema) (doc : Document) (l : Listing) {ids : List ElementId}
    {j : ElementId} (hj : j ∉ ids) : (ids.foldl (Listing.step s doc) l).spot? j = l.spot? j := by
  induction ids generalizing l with
  | nil => rfl
  | cons id rest ih =>
    obtain ⟨hne, hrest⟩ := not_or.1 fun h => hj (List.mem_cons.2 h)
    rw [List.foldl_cons, ih _ hrest, spot?_step_of_ne s doc l (Ne.symm hne)]

/-- What is listed after a walk over some elements: those that are bound have a spot, and one that declares
nothing has the path of its parent. -/
structure Spotted (doc : Document) (walked : List ElementId) (l : Listing) : Prop where
  size : l.spots.size = doc.size
  spotted : ∀ id, (∃ spot, l.spot? id = some spot) ↔ id ∈ walked ∧ doc.isBound id = true
  inherits : ∀ {id : ElementId} {spot : Spot}, l.spot? id = some spot → spot.declares = false →
    ∃ p above, doc.parent? id = some p ∧ l.spot? p = some above ∧ above.path = spot.path

namespace Spotted

variable {s : Schema} {doc : Document} {walked : List ElementId} {l l' : Listing} {id p : ElementId}

/-- An element that has not been walked over gets a spot. -/
theorem put (h : l.Spotted doc walked) (hnew : id ∉ walked) (hbound : doc.isBound id = true) {spot : Spot}
    (hspots : l'.spots = l.spots.setIfInBounds id (some spot))
    (hinherits : spot.declares = false →
      ∃ p above, doc.parent? id = some p ∧ l.spot? p = some above ∧ above.path = spot.path) :
    l'.Spotted doc (walked ++ [id]) := by
  obtain ⟨e, -, he, -⟩ := Document.isBound_iff.1 hbound
  have hlt : id < l.spots.size := h.size ▸ Document.lt_size_of_element? he
  have hspot : ∀ j, l'.spot? j = if id = j then some spot else l.spot? j := spot?_of_spots hspots hlt
  -- the spots of the elements before are still there
  have hkept : ∀ {j found}, l.spot? j = some found → l'.spot? j = some found := by
    intro j found hfound
    have hne : id ≠ j := by
      rintro rfl
      exact hnew ((h.spotted id).1 ⟨found, hfound⟩).1
    rw [hspot, if_neg hne, hfound]
  refine ⟨?_, fun j => ?_, fun {j found} hfound hdeclares => ?_⟩
  · rw [hspots, Array.size_setIfInBounds, h.size]
  · rw [hspot]
    by_cases hj : id = j
    · subst hj
      simp [hbound]
    · rw [if_neg hj, h.spotted]
      simp [Ne.symm hj]
  · rw [hspot] at hfound
    split at hfound
    · rename_i hj
      cases hfound
      obtain ⟨p, above, hp, habove, hpath⟩ := hinherits hdeclares
      subst hj
      exact ⟨p, above, hp, hkept habove, hpath⟩
    · obtain ⟨p, above, hp, habove, hpath⟩ := h.inherits hfound hdeclares
      exact ⟨p, above, hp, hkept habove, hpath⟩

/-- A step over an element whose parent has been walked over. -/
theorem step (h : l.Spotted doc walked) (s : Schema) (hup : doc.BoundAbove) (hnew : id ∉ walked)
    (hparent : doc.parent? id = some p) (hp : p ∈ walked) :
    (l.step s doc id).Spotted doc (walked ++ [id]) := by
  cases hbound : doc.isBound id with
  | true =>
    obtain ⟨e, b, he, hb⟩ := Document.isBound_iff.1 hbound
    obtain ⟨above, habove⟩ := (h.spotted p).2 ⟨hp, hup id p hparent hbound⟩
    have hlisted : e.parent?.bind l.spot? = some above := by
      rw [Document.parent?, he, Option.bind_some] at hparent
      rw [hparent, Option.bind_some, habove]
    obtain ⟨spot, hspots, hpath⟩ := l.exists_spots_add s doc id e b above.path
    have hstep : l.step s doc id = l.add s doc id e b above.path := by
      simp only [Listing.step, he, hb, hlisted]
    rw [hstep]
    exact h.put hnew hbound hspots fun hdeclares => ⟨p, above, hparent, habove, (hpath hdeclares).symm⟩
  | false =>
    have hstep : l.step s doc id = l := by
      unfold Listing.step
      split
      · rfl
      · rename_i e he
        have hb : e.binding? = none := by simpa [Document.isBound, he] using hbound
        rw [hb]
    rw [hstep]
    refine ⟨h.size, fun j => ?_, h.inherits⟩
    rw [h.spotted, List.mem_append, List.mem_singleton]
    refine and_congr_left fun hb => ⟨.inl, fun hj => hj.resolve_right ?_⟩
    rintro rfl
    rw [hbound] at hb
    cases hb

/-- A walk that comes to every element once, and to its parent before it. -/
theorem foldl (h : l.Spotted doc walked) (s : Schema) (hdoc : doc.Tree) (hup : doc.BoundAbove)
    {rest : List ElementId} (hnodup : (walked ++ rest).Nodup)
    (hfirst : (walked ++ rest).Pairwise fun a b => doc.parent? a ≠ some b)
    (hparent : ∀ id ∈ rest, ∃ p ∈ walked ++ rest, doc.parent? id = some p) :
    (rest.foldl (Listing.step s doc) l).Spotted doc (walked ++ rest) := by
  induction rest generalizing walked l with
  | nil => rwa [List.append_nil]
  | cons id rest ih =>
    obtain ⟨p, hp, hparentId⟩ := hparent id List.mem_cons_self
    have hwalked : p ∈ walked := by
      rcases List.mem_append.1 hp with hp | hp
      · exact hp
      rcases List.mem_cons.1 hp with rfl | hp
      · exact absurd (hdoc.parent_lt hparentId) (Nat.lt_irrefl _)
      · exact absurd hparentId ((List.pairwise_cons.1 (List.pairwise_append.1 hfirst).2.1).1 p hp)
    have hnew : id ∉ walked := fun hid =>
      (List.nodup_append.1 hnodup).2.2 id hid id List.mem_cons_self rfl
    rw [List.append_cons] at hnodup hfirst hparent ⊢
    exact ih (h.step s hup hnew hparentId hwalked) hnodup hfirst
      fun j hj => hparent j (List.mem_cons_of_mem id hj)

end Spotted

end Listing

section

variable (s : Schema) {doc : Document} {root : ElementId}

theorem root_not_mem_tail (hdoc : doc.Tree) (root : ElementId) : root ∉ (doc.subtree root).tail := by
  have hnodup := hdoc.nodup_subtree root
  rw [Document.subtree_eq_flatMap] at hnodup ⊢
  exact (List.nodup_cons.1 hnodup).1

/-- The listing of a document whose root is bound has a spot for each bound element of the tree. -/
theorem listing_spotted (hdoc : doc.Tree) (hup : doc.BoundAbove) (hroot : doc.root? = some root)
    (hbound : doc.isBound root = true) : (listing s doc).Spotted doc doc.descendants := by
  obtain ⟨e, b, he, hb⟩ := Document.isBound_iff.1 hbound
  have hwalk := Document.descendants_eq_cons hroot
  have hnodup := hdoc.nodup_descendants
  have hfirst : doc.descendants.Pairwise fun a b => doc.parent? a ≠ some b := by
    rw [Document.descendants, hroot]
    exact hdoc.parents_first root
  have hstart : (Listing.start doc).Spotted doc [] := by
    refine ⟨Array.size_replicate, fun id => ?_, fun hspot => ?_⟩
    · simp
    · rw [Listing.spot?_start] at hspot
      cases hspot
  have hrooted : ((Listing.start doc).declare doc root e [doc.name]).Spotted doc [root] := by
    refine hstart.put List.not_mem_nil hbound rfl fun hdeclares => ?_
    cases hdeclares
  rw [listing_of_bound s hroot he (by rw [hb]; rfl), listingFrom]
  rw [hwalk] at hnodup hfirst ⊢
  refine hrooted.foldl s hdoc hup hnodup hfirst fun id hid => ?_
  rw [← hwalk]
  refine hdoc.exists_parent (hwalk ▸ List.mem_append_right _ hid) fun heq => ?_
  obtain rfl := Option.some.inj (hroot.symm.trans heq)
  exact root_not_mem_tail hdoc root hid

/-- The root declares a path of its own. -/
theorem spot?_listing_root (hdoc : doc.Tree) (hroot : doc.root? = some root)
    (hbound : doc.isBound root = true) :
    (listing s doc).spot? root = some ⟨[doc.name], true⟩ := by
  obtain ⟨e, b, he, hb⟩ := Document.isBound_iff.1 hbound
  have hlt : root < (Listing.start doc).spots.size := by
    rw [Listing.start, Array.size_replicate]
    exact Document.lt_size_of_element? he
  rw [listing_of_bound s hroot he (by rw [hb]; rfl), listingFrom,
    Listing.spot?_foldl_of_not_mem _ _ _ (root_not_mem_tail hdoc root),
    Listing.spot?_of_spots (l := Listing.start doc) rfl hlt, if_pos rfl]

end

/-! ## Scopes -/

/-- The desc that an element declares, or else the one that the nearest element around it declares. -/
def enclosing? (n : Namespace) (doc : Document) (id : ElementId) : Option DescId :=
  (id :: doc.ancestors id).findSome? fun a => n.declared? (doc.ref a)

section

variable {n : Namespace} {s : Schema} {doc : Document} {id p : ElementId} {desc : DescId}
  {path : List String}

theorem enclosing?_of_declared? (h : n.declared? (doc.ref id) = some desc) :
    n.enclosing? doc id = some desc := by
  rw [enclosing?, List.findSome?_cons, h]

theorem enclosing?_of_parent? (hdoc : doc.Tree) (h : n.declared? (doc.ref id) = none)
    (hparent : doc.parent? id = some p) : n.enclosing? doc id = n.enclosing? doc p := by
  rw [enclosing?, List.findSome?_cons, h, hdoc.ancestors_eq hparent]
  rfl

/-- What an element declares is its scope. -/
theorem Settled.scope?_of_declared? (hn : Settled n) {r : ElementRef} (h : n.declared? r = some desc) :
    n.scope? r = some desc := by
  obtain ⟨pl, hpl, hdeclares⟩ := Option.bind_eq_some_iff.1 h
  obtain ⟨-, hnone | hself⟩ := hn.hasSite_place hpl
  · rw [hnone] at hdeclares
    cases hdeclares
  · rw [hself] at hdeclares
    cases hdeclares
    rw [scope?, hpl]
    rfl

theorem Settled.declared?_eq_none (hn : Settled n) {r : ElementRef} (h : n.scope? r = none) :
    n.declared? r = none := by
  refine Option.eq_none_iff_forall_ne_some.2 fun desc hdesc => ?_
  rw [hn.scope?_of_declared? hdesc] at h
  cases h

theorem Settled.exists_path_of_scope? (hn : Settled n) {r : ElementRef} (h : n.scope? r = some desc) :
    ∃ path, n.path? desc = some path := by
  obtain ⟨pl, hpl, rfl⟩ := Option.map_eq_some_iff.1 h
  obtain ⟨d, hd⟩ := (hn.hasSite_place hpl).1.live hn.anchored
  exact hn.tree.exists_path hd

theorem Mirrors.exists_spot (hm : Mirrors n s doc) (hn : Settled n) (h : n.scope? (doc.ref id) = some desc) :
    ∃ spot, (listing s doc).spot? id = some spot ∧ n.path? desc = some spot.path := by
  obtain ⟨path, hpath⟩ := hn.exists_path_of_scope? h
  obtain ⟨-, spot, hspot, rfl⟩ := (hm (.scope (doc.ref id) path) rfl).1 ⟨desc, h, hpath⟩
  exact ⟨spot, hspot, hpath⟩

/-- An element without a spot has no scope. -/
theorem Mirrors.scope?_eq_none (hm : Mirrors n s doc) (hn : Settled n)
    (h : (listing s doc).spot? id = none) : n.scope? (doc.ref id) = none := by
  refine Option.eq_none_iff_forall_ne_some.2 fun desc hdesc => ?_
  obtain ⟨spot, hspot, -⟩ := hm.exists_spot hn hdesc
  rw [h] at hspot
  cases hspot

theorem Mirrors.exists_scope (hm : Mirrors n s doc) {spot : Spot}
    (h : (listing s doc).spot? id = some spot) :
    ∃ desc, n.scope? (doc.ref id) = some desc ∧ n.path? desc = some spot.path :=
  (hm (.scope (doc.ref id) spot.path) rfl).2 ⟨rfl, spot, h, rfl⟩

/-- An element whose spot says so declares what is its scope, and no other declares anything. -/
theorem Mirrors.declared?_eq (hm : Mirrors n s doc) (hn : Settled n) {spot : Spot}
    (h : (listing s doc).spot? id = some spot) :
    n.declared? (doc.ref id) = if spot.declares then n.scope? (doc.ref id) else none := by
  split
  · rename_i hdeclares
    obtain ⟨desc, hdeclared, -⟩ :=
      (hm (.declared (doc.ref id) spot.path) rfl).2 ⟨rfl, spot, h, rfl, hdeclares⟩
    rw [hdeclared, hn.scope?_of_declared? hdeclared]
  · rename_i hdeclares
    refine Option.eq_none_iff_forall_ne_some.2 fun desc hdeclared => ?_
    obtain ⟨path, hpath⟩ := hn.exists_path_of_scope? (hn.scope?_of_declared? hdeclared)
    obtain ⟨-, other, hother, -, htrue⟩ :=
      (hm (.declared (doc.ref id) path) rfl).1 ⟨desc, hdeclared, hpath⟩
    obtain rfl := Option.some.inj (h.symm.trans hother)
    exact hdeclares htrue

/-- In a document whose root is bound, there is an element around every element that declares a desc, and
the nearest one gives the scope of an element that is bound. An element that is not bound has none. -/
theorem scope?_eq_enclosing? (hm : Mirrors n s doc) (hn : Settled n) (hdoc : doc.Tree)
    (hup : doc.BoundAbove) {root : ElementId} (hroot : doc.root? = some root)
    (hbound : doc.isBound root = true) (hid : id ∈ doc.descendants) :
    (∃ desc, n.enclosing? doc id = some desc) ∧
      n.scope? (doc.ref id) = if doc.isBound id then n.enclosing? doc id else none := by
  have hspots := listing_spotted s hdoc hup hroot hbound
  induction id using Nat.strongRecOn with
  | ind id ih =>
    cases hb : doc.isBound id with
    | true =>
      obtain ⟨spot, hspot⟩ := (hspots.spotted id).2 ⟨hid, hb⟩
      obtain ⟨desc, hscope, hpath⟩ := hm.exists_scope hspot
      have hdeclared := hm.declared?_eq hn hspot
      suffices henclosing : n.enclosing? doc id = some desc from
        ⟨⟨desc, henclosing⟩, hscope.trans henclosing.symm⟩
      cases hdeclares : spot.declares with
      | true =>
        rw [hdeclares, if_pos rfl, hscope] at hdeclared
        exact enclosing?_of_declared? hdeclared
      | false =>
        rw [hdeclares, if_neg Bool.false_ne_true] at hdeclared
        obtain ⟨p, above, hparent, habove, hsame⟩ := hspots.inherits hspot hdeclares
        obtain ⟨hp, hpbound⟩ := (hspots.spotted p).1 ⟨above, habove⟩
        obtain ⟨-, hscopeParent⟩ := ih p (hdoc.parent_lt hparent) hp
        obtain ⟨other, hother, hpathOther⟩ := hm.exists_scope habove
        rw [hsame] at hpathOther
        rw [enclosing?_of_parent? hdoc hdeclared hparent, hn.tree.path?_injective hpath hpathOther, ← hother,
          hscopeParent, hpbound, if_pos rfl]
    | false =>
      have hspot : (listing s doc).spot? id = none := by
        refine Option.eq_none_iff_forall_ne_some.2 fun spot hspot => ?_
        rw [((hspots.spotted id).1 ⟨spot, hspot⟩).2] at hb
        cases hb
      have hscope := hm.scope?_eq_none hn hspot
      have hdeclared := hn.declared?_eq_none hscope
      have hne : doc.root? ≠ some id := by
        intro heq
        rw [hroot] at heq
        cases heq
        rw [hbound] at hb
        cases hb
      obtain ⟨p, hp, hparent⟩ := hdoc.exists_parent hid hne
      rw [enclosing?_of_parent? hdoc hdeclared hparent]
      exact ⟨(ih p (hdoc.parent_lt hparent) hp).1, hscope⟩

end

end Namespace
end UILayout
