import UILayout.Schema.Bind

/-!
# UILayout.Schema.Marks

Binding in place: a walk from the root takes off all marks of an earlier binding, and a second walk, with
a stack of elements that are known to be bound, puts the new ones on. An element that neither walk comes
to keeps what it has.

* `pending_lt`: fewer elements are still to come after an element has given way to its children, so the
  walk ends.
-/

namespace UILayout
namespace Schema

open Markup

/-- What binding writes at the elements of a document: the slot that an element fills, and the type that
it has there. Each is kept for itself, and may be there without the other. -/
structure Marks where
  slot? : ElementId → Option SlotId
  type? : ElementId → Option ComplexTypeId

namespace Marks

def clear (m : Marks) (id : ElementId) : Marks where
  slot? j := if j = id then none else m.slot? j
  type? j := if j = id then none else m.type? j

def put (m : Marks) (id : ElementId) (b : Binding) : Marks where
  slot? j := if j = id then some b.slot else m.slot? j
  type? j := if j = id then some b.type else m.type? j

end Marks

/-- The children of an element for which a type has slots, each with its slot. -/
def slotted (s : Schema) (doc : Document) (id : ElementId) (type : ComplexTypeId) :
    List (ElementId × SlotId) :=
  (doc.below id).filterMap fun child =>
    ((doc.element? child).bind fun e => s.slotIn? type e.tag).map (child, ·)

/-- The number of elements that are still to come when a walk goes on from those of a stack. -/
def pending (doc : Document) (stack : List (ElementId × SlotId)) : Nat :=
  (stack.flatMap fun p => doc.subtree p.1).length

theorem pending_cons (doc : Document) (id : ElementId) (slot : SlotId)
    (stack : List (ElementId × SlotId)) : pending doc ((id, slot) :: stack) =
      ((doc.below id).flatMap doc.subtree).length + 1 + pending doc stack := by
  have hsubtree : doc.subtree id = id :: (doc.below id).flatMap doc.subtree := by
    rw [Document.subtree]
    simp
  rw [pending, List.flatMap_cons, List.length_append, hsubtree, List.length_cons, pending]

theorem pending_slotted_le (s : Schema) (doc : Document) (id : ElementId) (type : ComplexTypeId) :
    pending doc (s.slotted doc id type) ≤ ((doc.below id).flatMap doc.subtree).length := by
  unfold slotted pending
  induction doc.below id with
  | nil => exact Nat.le_refl 0
  | cons child rest ih =>
    rw [List.filterMap_cons, List.flatMap_cons, List.length_append]
    split
    · exact Nat.le_trans ih (Nat.le_add_left _ _)
    · rename_i p hp
      obtain ⟨slot, -, rfl⟩ := Option.map_eq_some_iff.1 hp
      rw [List.flatMap_cons, List.length_append]
      exact Nat.add_le_add_left ih _

theorem pending_lt (s : Schema) (doc : Document) (id : ElementId) (slot : SlotId) (type : ComplexTypeId)
    (stack : List (ElementId × SlotId)) :
    pending doc (s.slotted doc id type ++ stack) < pending doc ((id, slot) :: stack) := by
  have hchildren := pending_slotted_le s doc id type
  have happend : pending doc (s.slotted doc id type ++ stack) =
      pending doc (s.slotted doc id type) + pending doc stack := by
    simp only [pending, List.flatMap_append, List.length_append]
  rw [happend, pending_cons]
  omega

/-- Marks the elements of a stack, the top one first. The children that have slots come on top of the
others, the first child first. -/
def markStack (s : Schema) (doc : Document) (m : Marks) : List (ElementId × SlotId) → Marks
  | [] => m
  | (id, slot) :: stack =>
    match doc.element? id with
    | none => s.markStack doc m stack
    | some e =>
      let b := s.bindingIn e slot
      s.markStack doc (m.put id b) (s.slotted doc id b.type ++ stack)
  termination_by stack => pending doc stack
  decreasing_by
    · rw [pending_cons]
      omega
    · exact pending_lt s doc id slot b.type stack

/-- The marks of a document after it is bound, where `m` are those before. -/
def mark (s : Schema) (doc : Document) (m : Marks) : Marks :=
  let cleared := doc.descendants.foldl Marks.clear m
  match doc.root? with
  | none => cleared
  | some root =>
    if (s.slots[s.root]?.map (·.name)) = (doc.element? root).map (·.tag) then
      s.markStack doc cleared [(root, s.root)]
    else cleared

end Schema
end UILayout
