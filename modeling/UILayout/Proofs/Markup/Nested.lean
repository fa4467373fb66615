import UILayout.Proofs.Markup.Offsets

/-!
# UILayout.Proofs.Markup.Nested

Every child that an element of a document lists is there, and has a larger number. So a walk down the
document leaves no child out, and ends.

* `Document.Nested.push`: a new element is put below one that is there.
* `Document.Nested.below_eq`: a walk leaves no child out.
-/

namespace UILayout
namespace Markup
namespace Document

/-- The root is there, and so are all children, with larger numbers than their parents. -/
structure Nested (doc : Document) : Prop where
  root : ∀ root, doc.root? = some root → root < doc.size
  children : ∀ {id : ElementId} {e : Element}, doc.element? id = some e → ∀ child ∈ e.children,
    id < child ∧ child < doc.size

theorem size_push (doc : Document) (parent? : Option ElementId) (e : Element) :
    (doc.push parent? e).1.size = doc.size + 1 := by
  unfold push
  split <;> simp [size]

@[simp] theorem size_modify (doc : Document) (id : ElementId) (f : Element → Element) :
    (doc.modify id f).size = doc.size := Array.size_modify

theorem root?_push (doc : Document) (parent? : Option ElementId) (e : Element) :
    (doc.push parent? e).1.root? = doc.root? ∨ (doc.push parent? e).1.root? = some doc.size := by
  unfold push
  split
  · exact .inl rfl
  · cases h : doc.root? with
    | none => exact .inr rfl
    | some root => exact .inl rfl

/-- The children of an element, each with all below it. -/
theorem subtree_eq_flatMap (doc : Document) (id : ElementId) :
    doc.subtree id = id :: (doc.below id).flatMap doc.subtree := by
  rw [subtree]
  simp

/-- A walk down the document begins with the root. -/
theorem descendants_eq_cons {doc : Document} {root : ElementId} (h : doc.root? = some root) :
    doc.descendants = [root] ++ (doc.subtree root).tail := by
  rw [descendants, h]
  dsimp only
  rw [subtree_eq_flatMap]
  rfl

namespace Nested

variable {doc : Document}

theorem empty (id : DocumentId) (path : String) : (Document.empty id path).Nested := by
  refine ⟨nofun, fun he => ?_⟩
  simp [element?, Document.empty] at he

theorem push (h : doc.Nested) {parent? : Option ElementId} {e : Element}
    (hparent : ∀ parent, parent? = some parent → parent < doc.size) (he : e.children = []) :
    (doc.push parent? e).1.Nested := by
  constructor
  · intro root hroot
    rw [size_push]
    rcases root?_push doc parent? e with hold | hnew
    · exact Nat.lt_succ_of_lt (h.root root (hold ▸ hroot))
    · rw [hroot] at hnew
      cases hnew
      exact Nat.lt_succ_self _
  · intro id e' he' child hchild
    rw [size_push]
    rw [element?_push] at he'
    obtain ⟨old, hold, rfl⟩ := Option.map_eq_some_iff.1 he'
    have holdChildren : ∀ child ∈ old.children, id < child ∧ child < doc.size + 1 := by
      intro child hchild
      split at hold
      · cases hold
        rw [show ({ e with parent? := parent? } : Element).children = [] from he] at hchild
        cases hchild
      · obtain ⟨hlt, hsize⟩ := h.children hold child hchild
        exact ⟨hlt, Nat.lt_succ_of_lt hsize⟩
    split at hchild
    · rename_i hid
      rcases List.mem_append.1 hchild with hchild | hchild
      · exact holdChildren child hchild
      · rw [List.mem_singleton.1 hchild]
        exact ⟨hparent id hid, Nat.lt_succ_self _⟩
    · exact holdChildren child hchild

theorem subtree_lt {id : ElementId} (hid : id < doc.size) : ∀ j ∈ doc.subtree id, j < doc.size := by
  induction id using subtree.induct doc with
  | case1 id ih =>
    intro j hj
    rw [subtree_eq_flatMap] at hj
    rcases List.mem_cons.1 hj with rfl | hj
    · exact hid
    · obtain ⟨child, hchild, hj⟩ := List.mem_flatMap.1 hj
      exact ih child hchild (below_lt hchild).2 j hj

theorem descendants_lt (h : doc.Nested) : ∀ j ∈ doc.descendants, j < doc.size := by
  unfold descendants
  cases hroot : doc.root? with
  | none => exact nofun
  | some root => exact subtree_lt (h.root root hroot)

/-- Every child that an element lists is one of those that a walk goes on to. -/
theorem below_eq (h : doc.Nested) {id : ElementId} {e : Element} (he : doc.element? id = some e) :
    doc.below id = e.children := by
  rw [below, he]
  refine List.filter_eq_self.2 fun child hchild => ?_
  obtain ⟨hlt, hsize⟩ := h.children he child hchild
  simp [hlt, hsize]

end Nested

end Document
end Markup
end UILayout
