import UILayout.Markup.Document
import UILayout.Schema.Table

/-!
# UILayout.Schema.Bind

Binding documents to a schema. The root is bound when its tag is that of the schema's root slot, and
an element below it when its parent is bound and the parent's type has a slot for its tag. Elements
come after their parents, so one pass over them settles all.
-/

namespace UILayout
namespace Schema

open Markup

def bindingIn (s : Schema) (e : Element) (slot : SlotId) : Binding :=
  ⟨slot, s.elementType slot (e.value? "type")⟩

/-- The binding of the element `id`, where `done` holds the elements before it, which are bound. -/
def bindingOf? (s : Schema) (root? : Option ElementId) (done : Array Element) (id : ElementId)
    (e : Element) : Option Binding :=
  match e.parent? with
  | none =>
    if root? = some id ∧ (s.slots[s.root]?.map (·.name)) = some e.tag then
      some (s.bindingIn e s.root)
    else none
  | some parent =>
    match done[parent]?.bind (·.binding?) with
    | some b => (s.slotIn? b.type e.tag).map (s.bindingIn e)
    | none => none

/-- Binds every element that the schema has a slot for, and no other. -/
def bind (s : Schema) (doc : Document) : Document :=
  let bound := doc.elements.foldl
    (fun done e => done.push { e with binding? := s.bindingOf? doc.root? done done.size e }) #[]
  { doc with elements := bound }

end Schema
end UILayout
