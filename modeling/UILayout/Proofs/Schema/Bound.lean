import UILayout.Proofs.Markup.Reading
import UILayout.Schema.Bind

/-!
# UILayout.Proofs.Schema.Bound

Binding a document changes nothing but the bindings, and the bindings depend on nothing that binding
changes. So a document that is bound a second time, to the same schema or to another one, is bound as if
it had not been bound before.

* `element?_bind`: an element of a bound document.
* `binding?_of_parent`: its binding follows from that of its parent.
* `bind_bind`: binding again.
-/

namespace UILayout
namespace Schema

open Markup

/-- Binds elements behind those that are bound. -/
def bindBehind (s : Schema) (root? : Option ElementId) (done : Array Element) (es : List Element) :
    Array Element :=
  es.foldl (fun done e => done.push { e with binding? := s.bindingOf? root? done done.size e }) done

/-- An element before it is bound. -/
def unbound (e : Element) : Element := { e with binding? := none }

section

variable (s : Schema) (root? : Option ElementId)

theorem elements_bind (doc : Document) :
    (s.bind doc).elements = s.bindBehind doc.root? #[] doc.elements.toList := by
  rw [bind, bindBehind, Array.foldl_toList]

theorem getElem?_bindBehind (done : Array Element) (es : List Element) (id : Nat) :
    (s.bindBehind root? done es)[id]? =
      if id < done.size then done[id]?
      else es[id - done.size]?.map fun e =>
        { e with binding? :=
            s.bindingOf? root? (s.bindBehind root? done (es.take (id - done.size))) id e } := by
  induction es generalizing done with
  | nil =>
    rw [bindBehind, List.foldl_nil]
    split
    · rfl
    · rename_i hid
      rw [Array.getElem?_eq_none (Nat.le_of_not_lt hid)]
      rfl
  | cons e rest ih =>
    have hcons : ∀ tail, s.bindBehind root? done (e :: tail) = s.bindBehind root?
        (done.push { e with binding? := s.bindingOf? root? done done.size e }) tail := fun _ => rfl
    rw [hcons, ih, Array.size_push]
    rcases Nat.lt_trichotomy id done.size with hlt | rfl | hgt
    · rw [if_pos (Nat.lt_succ_of_lt hlt), if_pos hlt, Array.getElem?_push_lt hlt,
        Array.getElem?_eq_getElem hlt]
    · rw [if_pos (Nat.lt_succ_self _), if_neg (Nat.lt_irrefl _), Array.getElem?_push_size, Nat.sub_self]
      rfl
    · obtain ⟨i, rfl⟩ := Nat.exists_eq_add_of_lt hgt
      have hi : done.size + i + 1 - (done.size + 1) = i := by omega
      have hi' : done.size + i + 1 - done.size = i + 1 := by omega
      rw [if_neg (by omega), if_neg (by omega), hi, hi', List.getElem?_cons_succ, List.take_succ_cons,
        hcons]

/-- An element of a bound document is one of the document, with the binding that follows from the
elements before it. -/
theorem element?_bind (doc : Document) (id : ElementId) :
    (s.bind doc).element? id = (doc.element? id).map fun e =>
      { e with binding? :=
          s.bindingOf? doc.root? (s.bindBehind doc.root? #[] (doc.elements.toList.take id)) id e } := by
  have hat := getElem?_bindBehind s doc.root? #[] doc.elements.toList id
  rw [Array.size_empty, if_neg (Nat.not_lt_zero id), Nat.sub_zero, Array.getElem?_toList] at hat
  rw [Document.element?, elements_bind]
  exact hat

/-- The elements that are bound before an element are bound as they are in the whole document. -/
theorem getElem?_bindBehind_take (doc : Document) {parent id : Nat} (h : parent < id) :
    (s.bindBehind doc.root? #[] (doc.elements.toList.take id))[parent]? =
      (s.bind doc).element? parent := by
  have hat := getElem?_bindBehind s doc.root? #[] (doc.elements.toList.take id) parent
  rw [Array.size_empty, if_neg (Nat.not_lt_zero _), Nat.sub_zero, List.getElem?_take_of_lt h,
    List.take_take, Nat.min_eq_left (Nat.le_of_lt h), Array.getElem?_toList] at hat
  rw [hat, element?_bind]
  rfl

/-- An element with a parent is bound when its parent is bound, and to a slot of that one's type. -/
theorem binding?_of_parent (doc : Document) {parent id : ElementId} {e : Element}
    (he : (s.bind doc).element? id = some e) (hparent : e.parent? = some parent) (hlt : parent < id) :
    e.binding? = (((s.bind doc).element? parent).bind (·.binding?)).bind fun b =>
      (s.slotIn? b.type e.tag).map (s.bindingIn e) := by
  have hat := element?_bind s doc id
  rw [he] at hat
  obtain ⟨read, -, rfl⟩ := Option.map_eq_some_iff.1 hat.symm
  have hdone := congrArg (Option.bind · (·.binding?)) (getElem?_bindBehind_take s doc hlt)
  have hbinding : ∀ {done : Array Element} {found? : Option Binding},
      (done[parent]?.bind (·.binding?)) = found? → s.bindingOf? doc.root? done id read =
        found?.bind fun b => (s.slotIn? b.type read.tag).map (s.bindingIn read) := by
    rintro done found? rfl
    unfold bindingOf?
    rw [show read.parent? = some parent from hparent]
    dsimp only
    cases done[parent]?.bind (·.binding?) <;> rfl
  exact hbinding hdone

/-- The type of a bound element is the one that its slot has for it. -/
theorem binding_eq_bindingIn (doc : Document) {id : ElementId} {e : Element} {b : Binding}
    (he : (s.bind doc).element? id = some e) (hb : e.binding? = some b) : b = s.bindingIn e b.slot := by
  rw [element?_bind] at he
  obtain ⟨read, -, rfl⟩ := Option.map_eq_some_iff.1 he
  dsimp only at hb
  unfold bindingOf? at hb
  split at hb
  · split at hb
    · cases hb
      rfl
    · cases hb
  · split at hb
    · obtain ⟨slot, -, rfl⟩ := Option.map_eq_some_iff.1 hb
      rfl
    · cases hb

theorem bindBehind_map_unbound (done : Array Element) (es : List Element) :
    s.bindBehind root? done (es.map unbound) = s.bindBehind root? done es := by
  rw [bindBehind, List.foldl_map]
  rfl

theorem map_unbound_bindBehind (done : Array Element) (es : List Element) :
    (s.bindBehind root? done es).toList.map unbound =
      done.toList.map unbound ++ es.map unbound := by
  induction es generalizing done with
  | nil => simp [bindBehind]
  | cons e rest ih =>
    have hcons : s.bindBehind root? done (e :: rest) = s.bindBehind root?
        (done.push { e with binding? := s.bindingOf? root? done done.size e }) rest := rfl
    rw [hcons, ih]
    simp [unbound]

/-- A binding leaves no trace in the next one. -/
theorem bind_bind (s' : Schema) (doc : Document) : s'.bind (s.bind doc) = s'.bind doc := by
  have helements : (s'.bind (s.bind doc)).elements = (s'.bind doc).elements := by
    rw [elements_bind, elements_bind, ← bindBehind_map_unbound, elements_bind, map_unbound_bindBehind,
      ← bindBehind_map_unbound s' doc.root? #[] doc.elements.toList]
    rfl
  have hrest : ∀ doc : Document, s'.bind doc = { doc with elements := (s'.bind doc).elements } :=
    fun _ => rfl
  rw [hrest (s.bind doc), helements, hrest doc]
  rfl

end

end Schema
end UILayout
