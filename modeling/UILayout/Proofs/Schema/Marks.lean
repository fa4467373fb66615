import UILayout.Proofs.Markup.Tree
import UILayout.Schema.Marks

/-!
# UILayout.Proofs.Schema.Marks

Binding in place leaves the marks that follow from the tree alone: the root is bound by its tag, every
other element by the type of its parent, and nothing of an earlier binding is left where the walk comes to.

* `Marks.Follows`: the rule, for the root and from parent to child.
* `Marking.pop`: what the stack keeps while an element gives way to its children.
* `mark_exact`: the marks after binding.
-/

namespace UILayout
namespace Schema

open Markup

/-- The marks at an element are those of a binding, or neither is there. -/
def Marks.At (m : Marks) (id : ElementId) (b? : Option Binding) : Prop :=
  m.slot? id = b?.map (·.slot) ∧ m.type? id = b?.map (·.type)

/-- The marks of a document follow from its tree: the root is bound when it has the name of the root
slot, and a child when its parent is bound to a type with a slot for it. -/
structure Marks.Follows (s : Schema) (doc : Document) (m : Marks) : Prop where
  root : ∀ {root : ElementId} {e : Element}, doc.root? = some root → doc.element? root = some e →
    m.At root (if (s.slots[s.root]?.map (·.name)) = some e.tag then some (s.bindingIn e s.root) else none)
  child : ∀ {parent child : ElementId} {e : Element}, doc.Reached parent → doc.Child parent child →
    doc.element? child = some e →
    m.At child ((m.type? parent).bind fun type => (s.slotIn? type e.tag).map (s.bindingIn e))

namespace Marks

variable {m : Marks} {id j : ElementId} {b : Binding} {b? : Option Binding}

theorem at_put_self (m : Marks) (id : ElementId) (b : Binding) : (m.put id b).At id (some b) := by
  simp [At, put]

theorem at_put_of_ne (h : j ≠ id) : (m.put id b).At j b? ↔ m.At j b? := by
  simp [At, put, h]

theorem At.isSome_eq (h : m.At id b?) : (m.slot? id).isSome = (m.type? id).isSome := by
  rw [h.1, h.2, Option.isSome_map, Option.isSome_map]

theorem At.eq {m' : Marks} (h : m.At id b?) (h' : m'.At id b?) :
    m.slot? id = m'.slot? id ∧ m.type? id = m'.type? id :=
  ⟨h.1.trans h'.1.symm, h.2.trans h'.2.symm⟩

/-- After clearing, the elements that were cleared have no marks, and the others have theirs. -/
theorem slot?_foldl_clear (ids : List ElementId) (m : Marks) (j : ElementId) :
    (ids.foldl clear m).slot? j = (if j ∈ ids then none else m.slot? j) ∧
      (ids.foldl clear m).type? j = if j ∈ ids then none else m.type? j := by
  induction ids generalizing m with
  | nil => simp
  | cons id rest ih =>
    obtain ⟨hslot, htype⟩ := ih (m.clear id)
    rw [List.foldl_cons, hslot, htype]
    by_cases hj : j = id <;> simp [clear, hj]

end Marks

section

variable {s : Schema} {doc : Document}

/-! ## Bindings from parent to child -/

theorem exists_element_of_reached (h : doc.Tree) {id : ElementId} (hid : doc.Reached id) :
    ∃ e, doc.element? id = some e :=
  ⟨_, Array.getElem?_eq_getElem (h.toNested.descendants_lt id (h.toNested.mem_descendants_iff.2 hid))⟩

/-- The binding that one pass over the elements finds. -/
def bound? (s : Schema) (doc : Document) (id : ElementId) : Option Binding :=
  ((s.bind doc).element? id).bind (·.binding?)

theorem bound?_root (h : doc.Tree) {root : ElementId} {e : Element} (hroot : doc.root? = some root)
    (he : doc.element? root = some e) :
    s.bound? doc root =
      if (s.slots[s.root]?.map (·.name)) = some e.tag then some (s.bindingIn e s.root) else none := by
  have hparent : e.parent? = none := by
    have hnone := h.rootless root hroot
    rwa [Document.parent?, he] at hnone
  rw [bound?, element?_bind, he, Option.map_some, Option.bind_some]
  simp [bindingOf?, hparent, hroot]

theorem bound?_child (h : doc.Tree) {parent child : ElementId} {e : Element}
    (hchild : doc.Child parent child) (he : doc.element? child = some e) :
    s.bound? doc child =
      (s.bound? doc parent).bind fun b => (s.slotIn? b.type e.tag).map (s.bindingIn e) := by
  have hparent : doc.parent? child = some parent := (h.child_iff parent child).1 hchild
  have hat : e.parent? = some parent := by rwa [Document.parent?, he] at hparent
  have hbind := element?_bind s doc child
  rw [he, Option.map_some] at hbind
  rw [bound?, hbind, Option.bind_some]
  exact binding?_of_parent s doc hbind hat (h.parent_lt hparent)

/-- What the rule says of an element of the tree, it says of all below it. -/
theorem bound?_of_above (h : doc.Tree) {id j : ElementId} (hij : doc.Above id j)
    (hid : s.bound? doc id = none) : s.bound? doc j = none := by
  induction hij with
  | refl => exact hid
  | tail _ hchild ih =>
    rename_i parent child _
    cases he : doc.element? child with
    | none => rw [bound?, element?_bind, he]; rfl
    | some e => rw [bound?_child h hchild he, ih, Option.bind_none]

/-! ## The walk with a stack -/

/-- Where the walk stands. An element of the tree has the marks that it shall have, or none yet and is
below one that is on the stack; and what is on the stack will get the marks that it shall have. -/
structure Marking (s : Schema) (doc : Document) (before m : Marks) (stack : List (ElementId × SlotId)) :
    Prop where
  stacked : ∀ p ∈ stack, doc.Reached p.1 ∧
    ∃ e, doc.element? p.1 = some e ∧ s.bound? doc p.1 = some (s.bindingIn e p.2)
  settled : ∀ id, doc.Reached id → m.At id (s.bound? doc id) ∨
    m.At id none ∧ ∃ p ∈ stack, doc.Above p.1 id
  frame : ∀ id, ¬ doc.Reached id → m.slot? id = before.slot? id ∧ m.type? id = before.type? id

theorem mem_slotted_iff (h : doc.Nested) {id child : ElementId} {slot : SlotId} {type : ComplexTypeId} :
    (child, slot) ∈ s.slotted doc id type ↔
      doc.Child id child ∧ ∃ e, doc.element? child = some e ∧ s.slotIn? type e.tag = some slot := by
  rw [slotted, List.mem_filterMap]
  constructor
  · rintro ⟨c, hc, hslot⟩
    obtain ⟨found, hfound, heq⟩ := Option.map_eq_some_iff.1 hslot
    obtain ⟨rfl, rfl⟩ := Prod.mk.inj heq
    exact ⟨h.mem_below_iff.1 hc, Option.bind_eq_some_iff.1 hfound⟩
  · rintro ⟨hchild, hslot⟩
    exact ⟨child, h.mem_below_iff.2 hchild,
      Option.map_eq_some_iff.2 ⟨slot, Option.bind_eq_some_iff.2 hslot, rfl⟩⟩

namespace Marking

variable {before m : Marks} {stack : List (ElementId × SlotId)} {id : ElementId} {slot : SlotId}
  {e : Element}

/-- The element on top gets its marks, and its children with slots come in its place. -/
theorem pop (h : doc.Tree) (hm : Marking s doc before m ((id, slot) :: stack))
    (he : doc.element? id = some e) :
    Marking s doc before (m.put id (s.bindingIn e slot))
      (s.slotted doc id (s.bindingIn e slot).type ++ stack) := by
  obtain ⟨hreached, found, hfound, hbound⟩ := hm.stacked (id, slot) List.mem_cons_self
  obtain rfl : found = e := Option.some.inj (hfound.symm.trans he)
  refine ⟨?_, fun j hj => ?_, fun j hj => ?_⟩
  · rintro ⟨child, slot'⟩ hp
    rcases List.mem_append.1 hp with hp | hp
    · obtain ⟨hchild, e', he', hslot⟩ := (mem_slotted_iff h.toNested).1 hp
      obtain ⟨root, hroot, habove⟩ := hreached
      refine ⟨⟨root, hroot, habove.tail hchild⟩, e', he', ?_⟩
      rw [bound?_child h hchild he', hbound, Option.bind_some, hslot]
      rfl
    · exact hm.stacked _ (List.mem_cons_of_mem _ hp)
  · by_cases hne : j = id
    · subst hne
      exact .inl (hbound ▸ m.at_put_self j _)
    · rw [Marks.at_put_of_ne hne, Marks.at_put_of_ne hne]
      rcases hm.settled j hj with hat | ⟨hat, p, hp, habove⟩
      · exact .inl hat
      · rcases List.mem_cons.1 hp with rfl | hp
        · -- the element is below one of the children, which is on the stack or not bound
          obtain hid | ⟨child, hchild, hj'⟩ := Relation.ReflTransGen.cases_head habove
          · exact absurd hid.symm hne
          obtain ⟨root, hroot, hid⟩ := hreached
          obtain ⟨e', he'⟩ := exists_element_of_reached h ⟨root, hroot, hid.tail hchild⟩
          cases hslot : s.slotIn? (s.bindingIn found slot).type e'.tag with
          | some slot' =>
            have hp := (mem_slotted_iff (s := s) h.toNested).2 ⟨hchild, e', he', hslot⟩
            exact .inr ⟨hat, (child, slot'), List.mem_append_left _ hp, hj'⟩
          | none =>
            have hnone : s.bound? doc child = none := by
              rw [bound?_child h hchild he', hbound, Option.bind_some, hslot]
              rfl
            exact .inl (bound?_of_above h hj' hnone ▸ hat)
        · exact .inr ⟨hat, p, List.mem_append_right _ hp, habove⟩
  · have hne : j ≠ id := fun heq => hj (heq ▸ hreached)
    obtain ⟨hslot, htype⟩ := hm.frame j hj
    simp [Marks.put, hne, hslot, htype]

/-- The walk ends with all elements marked. -/
theorem markStack (h : doc.Tree) (hm : Marking s doc before m stack) :
    Marking s doc before (s.markStack doc m stack) [] := by
  induction m, stack using Schema.markStack.induct s doc with
  | case1 m => rwa [Schema.markStack]
  | case2 m id slot stack hnone _ =>
    obtain ⟨-, e, he, -⟩ := hm.stacked _ List.mem_cons_self
    rw [hnone] at he
    cases he
  | case3 m id slot stack e he b ih =>
    rw [Schema.markStack, he]
    exact ih (hm.pop h he)

end Marking

/-- Before the walk starts there are no marks in the tree. -/
theorem marking_cleared (h : doc.Tree) (before : Marks) (id : ElementId) :
    (doc.Reached id → (doc.descendants.foldl Marks.clear before).At id none) ∧
      (¬ doc.Reached id → (doc.descendants.foldl Marks.clear before).slot? id = before.slot? id ∧
        (doc.descendants.foldl Marks.clear before).type? id = before.type? id) := by
  obtain ⟨hslot, htype⟩ := Marks.slot?_foldl_clear doc.descendants before id
  refine ⟨fun hid => ?_, fun hid => ?_⟩
  · rw [if_pos (h.toNested.mem_descendants_iff.2 hid)] at hslot htype
    exact ⟨hslot, htype⟩
  · rw [if_neg fun hmem => hid (h.toNested.mem_descendants_iff.1 hmem)] at hslot htype
    exact ⟨hslot, htype⟩

/-- All elements of the tree get the marks that one pass finds, and no other element is changed. -/
theorem marking_mark (h : doc.Tree) (before : Marks) : Marking s doc before (s.mark doc before) [] := by
  unfold mark
  split
  · rename_i hroot
    refine ⟨nofun, ?_, fun id hid => (marking_cleared h before id).2 hid⟩
    rintro id ⟨root, hsome, -⟩
    rw [hroot] at hsome
    cases hsome
  · rename_i root hroot
    obtain ⟨e, he⟩ := exists_element_of_reached h ⟨root, hroot, .refl⟩
    have hbound := bound?_root (s := s) h hroot he
    rw [he, Option.map_some]
    split
    · rename_i hname
      rw [if_pos hname] at hbound
      refine Marking.markStack h ⟨?_, ?_, fun id hid => (marking_cleared h before id).2 hid⟩
      · intro p hp
        rw [List.mem_singleton.1 hp]
        exact ⟨⟨root, hroot, .refl⟩, e, he, hbound⟩
      · rintro id ⟨root', hroot', habove⟩
        obtain rfl : root = root' := Option.some.inj (hroot.symm.trans hroot')
        exact .inr ⟨(marking_cleared h before id).1 ⟨root, hroot, habove⟩, _, List.mem_singleton_self _,
          habove⟩
    · rename_i hname
      rw [if_neg hname] at hbound
      refine ⟨nofun, ?_, fun id hid => (marking_cleared h before id).2 hid⟩
      rintro id ⟨root', hroot', habove⟩
      obtain rfl : root = root' := Option.some.inj (hroot.symm.trans hroot')
      rw [bound?_of_above h habove hbound]
      exact .inl ((marking_cleared h before id).1 ⟨root, hroot, habove⟩)

theorem at_mark (h : doc.Tree) (before : Marks) {id : ElementId} (hid : doc.Reached id) :
    (s.mark doc before).At id (s.bound? doc id) := by
  rcases (marking_mark h before).settled id hid with hat | ⟨-, p, hp, -⟩
  · exact hat
  · cases hp

/-! ## The rule -/

theorem follows_mark (h : doc.Tree) (before : Marks) : (s.mark doc before).Follows s doc := by
  constructor
  · intro root e hroot he
    rw [← bound?_root h hroot he]
    exact at_mark h before ⟨root, hroot, .refl⟩
  · rintro parent child e ⟨root, hroot, habove⟩ hchild he
    have hparent := at_mark (s := s) h before ⟨root, hroot, habove⟩
    rw [hparent.2, Option.bind_map]
    have hat := at_mark (s := s) h before ⟨root, hroot, habove.tail hchild⟩
    rwa [bound?_child h hchild he] at hat

/-- The rule leaves no choice. -/
theorem Marks.Follows.unique (h : doc.Tree) {m m' : Marks} (hm : m.Follows s doc)
    (hm' : m'.Follows s doc) {id : ElementId} (hid : doc.Reached id) :
    m.slot? id = m'.slot? id ∧ m.type? id = m'.type? id := by
  obtain ⟨root, hroot, habove⟩ := hid
  induction habove with
  | refl =>
    obtain ⟨e, he⟩ := exists_element_of_reached h ⟨root, hroot, .refl⟩
    exact (hm.root hroot he).eq (hm'.root hroot he)
  | tail habove hchild ih =>
    rename_i parent child
    obtain ⟨e, he⟩ := exists_element_of_reached h ⟨root, hroot, habove.tail hchild⟩
    have hat := hm.child ⟨root, hroot, habove⟩ hchild he
    rw [ih.2] at hat
    exact hat.eq (hm'.child ⟨root, hroot, habove⟩ hchild he)

end

/-- Binding in place is a function of the tree alone. After it the elements of the tree have the marks
that the rule gives them, and there are no others that the rule allows; slot and type are both there or
both missing; who is bound has a bound parent; what an earlier binding, to the same schema or to another
one, has left makes no difference; elements outside of the tree are not touched; and the marks are those
that one pass over all elements finds. -/
theorem mark_exact (s : Schema) {doc : Document} (h : doc.Built) (before : Marks) :
    (s.mark doc before).Follows s doc ∧
      (∀ m : Marks, m.Follows s doc → ∀ id, doc.Reached id →
        m.slot? id = (s.mark doc before).slot? id ∧ m.type? id = (s.mark doc before).type? id) ∧
      (∀ id, doc.Reached id →
        ((s.mark doc before).slot? id).isSome = ((s.mark doc before).type? id).isSome) ∧
      (∀ parent child, doc.Reached parent → doc.Child parent child →
        ((s.mark doc before).type? child).isSome → ((s.mark doc before).type? parent).isSome) ∧
      (∀ s' : Schema, s.mark doc (s'.mark doc before) = s.mark doc before) ∧
      (∀ id, ¬ doc.Reached id → (s.mark doc before).slot? id = before.slot? id ∧
        (s.mark doc before).type? id = before.type? id) ∧
      ∀ id e, doc.Reached id → (s.bind doc).element? id = some e →
        (s.mark doc before).At id e.binding? := by
  have htree := Document.tree_of_built h
  refine ⟨follows_mark htree before, fun m hm id hid => hm.unique htree (follows_mark htree before) hid,
    fun id hid => (at_mark htree before hid).isSome_eq, ?_, fun s' => ?_,
    (marking_mark htree before).frame, fun id e hid he => ?_⟩
  · rintro parent child ⟨root, hroot, habove⟩ hchild hsome
    have hparent := at_mark (s := s) htree before ⟨root, hroot, habove⟩
    have hat := at_mark (s := s) htree before ⟨root, hroot, habove.tail hchild⟩
    rw [hparent.2, Option.isSome_map]
    rw [hat.2, Option.isSome_map] at hsome
    by_contra hnone
    rw [Option.not_isSome_iff_eq_none] at hnone
    rw [bound?_of_above htree (.single hchild) hnone] at hsome
    cases hsome
  · have hagree : ∀ id, (s.mark doc (s'.mark doc before)).slot? id = (s.mark doc before).slot? id ∧
        (s.mark doc (s'.mark doc before)).type? id = (s.mark doc before).type? id := by
      intro id
      by_cases hid : doc.Reached id
      · exact (at_mark htree _ hid).eq (at_mark htree _ hid)
      · obtain ⟨hslot, htype⟩ := (marking_mark (s := s) htree (s'.mark doc before)).frame id hid
        obtain ⟨hslot', htype'⟩ := (marking_mark (s := s') htree before).frame id hid
        obtain ⟨hslot'', htype''⟩ := (marking_mark (s := s) htree before).frame id hid
        exact ⟨(hslot.trans hslot').trans hslot''.symm, (htype.trans htype').trans htype''.symm⟩
    have hext : ∀ m m' : Marks, (∀ id, m.slot? id = m'.slot? id ∧ m.type? id = m'.type? id) → m = m' := by
      rintro ⟨slot?, type?⟩ ⟨slot?', type?'⟩ heq
      obtain rfl : slot? = slot?' := funext fun id => (heq id).1
      obtain rfl : type? = type?' := funext fun id => (heq id).2
      rfl
    exact hext _ _ hagree
  · have hat := at_mark (s := s) htree before hid
    rwa [bound?, he, Option.bind_some] at hat

/-- A type with slots and without anything else. -/
def slotsOnly (slots : List (String × SlotId)) : ComplexType :=
  ⟨"", .empty, [], ⟨slots⟩, ⟨false, false, false⟩, .empty, .empty, .empty, .empty, .empty, none, none⟩

/-- Frames, which may be buttons; a button may have a text. -/
def buttons : Schema where
  simpleTypes := #[]
  complexTypes := #[slotsOnly [("Frame", 1)], slotsOnly [], slotsOnly [("Text", 2)]]
  slots := #[⟨"Desc", .desc, 0, .empty, none, none⟩, ⟨"Frame", .frame, 1, .empty, none, none⟩,
    ⟨"Text", .frameProperty, 1, .empty, none, none⟩]
  classes := #[]
  properties := #[]
  frameTypes := #[⟨"Button", false, none, [], .empty, 2⟩]
  root := 0

/-- A button with a text and with something that has no slot. -/
def buttonDocument : Document :=
  let button := { Element.opened "Frame" 6 with attributes := [.plain "type" "Button" 13] }
  let doc := ((Document.empty 0 "A").push none (.opened "Desc" 0)).1
  let doc := (doc.push (some 0) button).1
  let doc := (doc.push (some 1) (.opened "Text" 27)).1
  (doc.push (some 1) (.opened "Bogus" 33)).1

theorem built_buttonDocument : buttonDocument.Built := by
  refine .push (.push (.push (.push (.empty 0 "A") nofun rfl) ?_ rfl) ?_ rfl) ?_ rfl
  all_goals
    rintro parent ⟨⟩
    decide

/-- Marks of another schema: one without a type, and one without a slot. -/
def otherMarks : Marks where
  slot? id := if id = 3 then some 9 else none
  type? id := if id = 2 then some 9 else none

/-- The button gets the type of buttons and its text the slot of theirs; what has no slot loses its mark. -/
theorem mark_exact_button :
    let m := buttons.mark buttonDocument otherMarks
    buttonDocument.Built ∧ m.type? 1 = some 2 ∧ m.slot? 2 = some 2 ∧ m.type? 2 = some 1 ∧
      m.slot? 3 = none := by
  intro m
  obtain ⟨hfollows, -⟩ := mark_exact buttons built_buttonDocument otherMarks
  have hroot : buttonDocument.Reached 0 := ⟨0, rfl, .refl⟩
  have hchild : ∀ {parent child : ElementId}, buttonDocument.Reached parent →
      buttonDocument.Child parent child → buttonDocument.Reached child := by
    rintro parent child ⟨root, hroot, habove⟩ hchild
    exact ⟨root, hroot, habove.tail hchild⟩
  have hbutton : buttonDocument.Child 0 1 := ⟨_, rfl, by decide⟩
  have htext : buttonDocument.Child 1 2 := ⟨_, rfl, by decide⟩
  have hbogus : buttonDocument.Child 1 3 := ⟨_, rfl, by decide⟩
  have hdesc : m.type? 0 = some 0 := (hfollows.root rfl rfl).2
  have htype : m.type? 1 = some 2 := by
    have hat := (hfollows.child hroot hbutton rfl).2
    rw [hdesc] at hat
    exact hat.trans (by decide +kernel)
  have hat := hfollows.child (hchild hroot hbutton) htext rfl
  have hat' := hfollows.child (hchild hroot hbutton) hbogus rfl
  rw [htype] at hat hat'
  exact ⟨built_buttonDocument, htype, hat.1, hat.2, hat'.1⟩

end Schema
end UILayout
