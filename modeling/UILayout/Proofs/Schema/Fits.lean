import UILayout.Proofs.Markup.Nested
import UILayout.Proofs.Schema.Bound
import UILayout.Proofs.Schema.Closed

/-!
# UILayout.Proofs.Schema.Fits

A document that is bound to a closed schema refers to nothing that the schema does not have, and is the
tree that it was before.

* `Closed.elementType_lt`: the type of an element is there, whatever its `type` attribute says.
* `Document.Fits.bind`: the bindings of a document.
-/

namespace UILayout

open Markup Schema

/-- A slot and a type that a schema has. -/
structure Markup.Binding.Fits (b : Binding) (s : Schema) : Prop where
  slot : b.slot < s.slots.size
  type : b.type < s.complexTypes.size

/-- A document whose tree has no gaps, and whose bindings are to what a schema has. -/
structure Markup.Document.Fits (doc : Document) (s : Schema) : Prop where
  nested : doc.Nested
  bindings : ∀ {id : ElementId} {e : Element}, doc.element? id = some e → ∀ b, e.binding? = some b →
    b.Fits s

namespace Schema

variable {s : Schema}

theorem Closed.elementType_lt (h : s.Closed) {slot : SlotId} (hslot : slot < s.slots.size)
    (typeValue? : Option String) : s.elementType slot typeValue? < s.complexTypes.size := by
  obtain ⟨htype, halternates⟩ := h.types s.slots[slot] (Array.getElem_mem hslot)
  unfold elementType
  rw [Array.getElem?_eq_getElem hslot]
  cases typeValue? with
  | none => exact htype
  | some value =>
    dsimp only
    generalize hframe : (if s.slots[slot].kind = SlotKind.frame then
      ((s.frameTypeNamed? value).bind (s.frameTypes[·]?)).map (·.type) else none) = frame?
    cases frame? with
    | some type =>
      split at hframe
      · obtain ⟨f, hf, rfl⟩ := Option.map_eq_some_iff.1 hframe
        obtain ⟨i, -, hi⟩ := Option.bind_eq_some_iff.1 hf
        exact (h.frameTypes f (Array.mem_of_getElem? hi)).1
      · cases hframe
    | none =>
      rw [Option.none_or]
      cases halternate : s.slots[slot].alternates.get? value with
      | none => exact htype
      | some type => exact halternates type (OrderedMap.mem_values_of_get? halternate)

theorem Closed.fits_bindingIn (h : s.Closed) {slot : SlotId} (hslot : slot < s.slots.size)
    (e : Element) : (s.bindingIn e slot).Fits s :=
  ⟨hslot, h.elementType_lt hslot _⟩

/-- An element is bound to the slot of the root, or to one that the type of its parent lists. -/
theorem Closed.fits_bindingOf? (h : s.Closed) {root? : Option ElementId} {done : Array Element}
    {id : ElementId} {e : Element} {b : Binding} (hb : s.bindingOf? root? done id e = some b) :
    b.Fits s := by
  unfold bindingOf? at hb
  split at hb
  · split at hb
    · cases hb
      exact h.fits_bindingIn h.root e
    · cases hb
  · split at hb
    · obtain ⟨slot, hslot, rfl⟩ := Option.map_eq_some_iff.1 hb
      obtain ⟨t, ht, hget⟩ := Option.bind_eq_some_iff.1 hslot
      exact h.fits_bindingIn (h.slots t (Array.mem_of_getElem? ht) slot
        (OrderedMap.mem_values_of_get? hget)) e
    · cases hb

theorem size_bindBehind (s : Schema) (root? : Option ElementId) (done : Array Element)
    (es : List Element) : (s.bindBehind root? done es).size = done.size + es.length := by
  induction es generalizing done with
  | nil => rfl
  | cons e rest ih =>
    refine (ih _).trans ?_
    rw [Array.size_push, List.length_cons]
    omega

theorem size_bind (s : Schema) (doc : Document) : (s.bind doc).size = doc.size := by
  rw [Document.size, elements_bind, size_bindBehind]
  simp [Document.size]

end Schema

theorem Markup.Document.Fits.bind {s : Schema} (h : s.Closed) {doc : Document} (hdoc : doc.Nested) :
    (s.bind doc).Fits s := by
  have hsize := size_bind s doc
  refine ⟨⟨fun root hroot => hsize ▸ hdoc.root root hroot, ?_⟩, ?_⟩
  · intro id e he child hchild
    rw [element?_bind] at he
    obtain ⟨read, hread, rfl⟩ := Option.map_eq_some_iff.1 he
    rw [hsize]
    exact hdoc.children hread child hchild
  · intro id e he b hb
    rw [element?_bind] at he
    obtain ⟨read, -, rfl⟩ := Option.map_eq_some_iff.1 he
    exact h.fits_bindingOf? hb

end UILayout
