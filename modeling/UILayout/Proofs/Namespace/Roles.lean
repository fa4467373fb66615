import UILayout.Proofs.Markup.Nested
import UILayout.Proofs.Namespace.Independent

/-!
# UILayout.Proofs.Namespace.Roles

Which elements are behind what a document lists. A place is declared by the root of the document or by
an element that declares something of the last name on its path; a constant comes from an element that
is a constant of this name. Descs have a name that is not empty, constants may have any.

* `Role.name_of_desc`, `Role.name_of_constant`: the names of elements that mean something.
* `listing_meant`: the elements of a listing.
* `content_of_constant`: the element of a constant that a namespace holds.
-/

namespace UILayout
namespace Namespace

open Schema Markup

/-! ## The name of an element -/

section

variable {s : Schema} {e : Element} {b : Binding} {name : String}

/-- An element that declares a desc has its name, which is not empty. -/
theorem Role.name_of_desc {kind : DescKind} (h : Role.ofElement s e b = .desc name kind) :
    name ≠ "" ∧ ∃ a, e.attribute? "name" = some a ∧ a.value = name := by
  have hslot := Role.ofSlot?_of_desc h
  cases hname : e.name? with
  | none => simp [Role.ofElement, hslot, hname] at h
  | some other =>
    simp only [Role.ofElement, hslot, hname] at h
    split at h
    · cases h
    · rename_i hne
      cases h
      exact ⟨by simpa using hne, Option.map_eq_some_iff.1 hname⟩

/-- An element that is a constant has its name, empty or not. -/
theorem Role.name_of_constant {value : Attribute} (h : Role.ofElement s e b = .constant name value) :
    s.slotKind b.slot = .constant ∧ ∃ a, e.attribute? "name" = some a ∧ a.value = name := by
  unfold Role.ofElement at h
  dsimp only at h
  split at h
  · split at h <;> cases h
  · cases h
  · split at h
    · rename_i hkind
      split at h
      · rename_i hname _
        cases h
        exact ⟨hkind, Option.map_eq_some_iff.1 hname⟩
      · cases h
    all_goals
      repeat' split at h
      all_goals cases h

end

/-! ## The elements of a listing -/

/-- An element declares a path: the root of a document that of the document, any other one a path that
ends with its name. -/
def Declares (s : Schema) (doc : Document) (id : ElementId) (path : List String) : Prop :=
  doc.root? = some id ∧ path = [doc.name] ∨
    ∃ e b above name kind, doc.element? id = some e ∧ e.binding? = some b ∧
      Role.ofElement s e b = .desc name kind ∧ path = above ++ [name]

/-- An element is a constant. -/
def IsConstant (s : Schema) (doc : Document) (id : ElementId) (e : Element) (c : Constant) : Prop :=
  ∃ b value, doc.element? id = some e ∧ e.binding? = some b ∧
    Role.ofElement s e b = .constant c.name value ∧ c.site = doc.ref id

/-- All that is listed is what the elements mean that the walk has come to. -/
structure Listing.Meant (s : Schema) (doc : Document) (walked : List ElementId) (l : Listing) :
    Prop where
  declared : ∀ {id : ElementId} {path : List String}, l.spot? id = some ⟨path, true⟩ →
    Declares s doc id path
  constants : ∀ c ∈ l.constants, ∃ id ∈ walked, ∃ e, IsConstant s doc id e c

namespace Listing.Meant

variable {s : Schema} {doc : Document} {walked : List ElementId} {l l' : Listing} {id : ElementId}

theorem start (s : Schema) (doc : Document) : (Listing.start doc).Meant s doc [] := by
  refine ⟨fun h => ?_, nofun⟩
  rw [spot?_start] at h
  cases h

theorem mono (h : l.Meant s doc walked) {more : List ElementId} (hsub : walked ⊆ more) :
    l.Meant s doc more := by
  refine ⟨h.declared, fun c hc => ?_⟩
  obtain ⟨id, hid, found⟩ := h.constants c hc
  exact ⟨id, hsub hid, found⟩

/-- One more element gets a spot. -/
theorem put (h : l.Meant s doc walked) (spot : Spot) (hspots : l'.spots = l.spots)
    (hspot : spot.declares = true → Declares s doc id spot.path)
    (hconstants : ∀ c ∈ l'.constants, c ∈ l.constants ∨ ∃ e, IsConstant s doc id e c) :
    (l'.put id spot).Meant s doc (walked ++ [id]) := by
  refine ⟨fun {j path} hj => ?_, fun c hc => ?_⟩
  · rw [spot?_put] at hj
    split at hj
    · rename_i hid
      obtain ⟨rfl, -⟩ := hid
      cases hj
      exact hspot rfl
    · rw [spot?, hspots] at hj
      exact h.declared hj
  · rcases hconstants c hc with hold | hnew
    · obtain ⟨j, hj, found⟩ := h.constants c hold
      exact ⟨j, List.mem_append_left _ hj, found⟩
    · exact ⟨id, List.mem_append_right _ (List.mem_singleton_self id), hnew⟩

theorem step (h : l.Meant s doc walked) (id : ElementId) :
    (l.step s doc id).Meant s doc (walked ++ [id]) := by
  have hskip := h.mono (List.subset_append_left walked [id])
  have hsame : ∀ c ∈ l.constants, c ∈ l.constants ∨ ∃ e, IsConstant s doc id e c := fun _ => .inl
  unfold Listing.step
  split
  · exact hskip
  · rename_i e he
    split
    · rename_i b spot hb _
      unfold Listing.add
      split
      · rename_i name kind hrole
        exact h.put ⟨spot.path ++ [name], true⟩ rfl
          (fun _ => .inr ⟨e, b, spot.path, name, kind, he, hb, hrole, rfl⟩) hsame
      · rename_i name value hrole
        refine h.put ⟨spot.path, false⟩ rfl nofun fun c hc => ?_
        rcases List.mem_append.1 hc with hold | hnew
        · exact .inl hold
        · rw [List.mem_singleton.1 hnew]
          exact .inr ⟨e, b, value, he, hb, hrole, rfl⟩
      all_goals exact h.put ⟨spot.path, false⟩ rfl nofun hsame
    · exact hskip

theorem foldl (h : l.Meant s doc walked) (ids : List ElementId) :
    (ids.foldl (Listing.step s doc) l).Meant s doc (walked ++ ids) := by
  induction ids generalizing walked l with
  | nil => rwa [List.append_nil]
  | cons id rest ih =>
    rw [List.append_cons]
    exact ih (h.step id)

end Listing.Meant

theorem listing_meant (s : Schema) (doc : Document) :
    (listing s doc).Meant s doc doc.descendants := by
  have hstart := (Listing.Meant.start s doc).mono (List.nil_subset doc.descendants)
  unfold listing
  split
  · exact hstart
  · rename_i root hroot
    split
    · exact hstart
    · rename_i e he
      split
      · have hrooted : ((Listing.start doc).declare doc root e [doc.name]).Meant s doc [root] :=
          (Listing.Meant.start s doc).put ⟨[doc.name], true⟩ rfl
            (fun _ => .inl ⟨hroot, rfl⟩) fun _ => .inl
        rw [Document.descendants_eq_cons hroot]
        exact hrooted.foldl _
      · exact hstart

/-! ## The constants of a namespace -/

/-- A constant that a namespace holds is one of the document that it comes from. -/
theorem content_of_constant (history : List Update) {name : String} {c : Constant}
    (h : Lists (after history).constants name c) :
    c.name = name ∧ ∃ s doc, current history c.site.document = some (s, doc) ∧
      ∃ id ∈ doc.descendants, ∃ e, IsConstant s doc id e c := by
  have hheld : (after history).Holds (.constant name c) := h
  obtain ⟨s, doc, hcurrent, hlisted, hname⟩ := (holds_of_document history rfl).1 hheld
  exact ⟨hname, s, doc, hcurrent, (listing_meant s doc).constants c hlisted⟩

end Namespace
end UILayout
