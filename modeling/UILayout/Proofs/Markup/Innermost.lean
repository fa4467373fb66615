import UILayout.Proofs.Markup.Laid

/-!
# UILayout.Proofs.Markup.Innermost

The way down to the element at an offset. It follows the first child that has the offset in it, its two
ends counted, and never turns back. Two siblings have at most one offset in common, where the second one
starts, and there nothing below the second one has it: so no element that is left aside is deeper than the
one that is found.

* `Laid.contains_of_above`: an element has all offsets of the elements below it.
* `Laid.depth_le_innermost`: no element with an offset is deeper than the one that the way down ends at.
* `nesting_ofText`: documents that have been read.
-/

namespace UILayout
namespace Markup
namespace Document

open Text

variable {doc : Document} {i j parent child : ElementId} {length offset : Nat}

/-- How many elements are around an element. -/
def depth (doc : Document) (i : ElementId) : Nat := (doc.ancestors i).length

/-- An element has an offset in it, its two ends counted. -/
def Contains (doc : Document) (i : ElementId) (offset : Nat) : Prop :=
  ∃ e, doc.element? i = some e ∧ e.start ≤ offset ∧ offset ≤ e.stop

/-! ## Depth -/

theorem Tree.depth_child (h : doc.Tree) (hchild : doc.Child parent child) :
    doc.depth child = doc.depth parent + 1 := by
  rw [depth, h.ancestors_eq ((h.child_iff parent child).1 hchild), List.length_cons, depth]

theorem Tree.depth_le_of_above (h : doc.Tree) (habove : doc.Above i j) : doc.depth i ≤ doc.depth j := by
  induction habove with
  | refl => exact Nat.le_refl _
  | tail _ hchild ih =>
    rw [h.depth_child hchild]
    exact Nat.le_succ_of_le ih

/-! ## The way down -/

namespace Laid

theorem touches_iff (h : doc.Laid length) : doc.touches offset i ↔ doc.Contains i offset := by
  unfold touches Contains
  cases he : doc.element? i with
  | none => simp
  | some e =>
    have hstop : max e.start e.stop = e.stop := by
      have := h.tag he
      omega
    rw [Option.any_some, Span.touches, Bool.and_eq_true, decide_eq_true_eq, decide_eq_true_eq]
    simp [Element.span, Span.cover, hstop]

/-- An element has all offsets of the elements below it. -/
theorem contains_of_above (h : doc.Laid length) (habove : doc.Above i j)
    (hj : doc.Contains j offset) : doc.Contains i offset := by
  induction habove with
  | refl => exact hj
  | @tail p c _ hchild ih =>
    obtain ⟨e, he, hstart, hstop⟩ := hj
    have hparent := (h.child_iff p c).1 hchild
    obtain ⟨e', he', -⟩ := hchild
    obtain ⟨hbehind, hinside⟩ := h.within hparent he' he
    have := h.tag he'
    exact ih ⟨e', he', by omega, by omega⟩

theorem contains_innermost (h : doc.Laid length) (hi : doc.Contains i offset) :
    doc.Contains (doc.innermost offset i) offset := by
  induction i using innermost.induct doc offset with
  | case1 i child hfound ih =>
    rw [innermost_of_find? hfound]
    exact ih (h.touches_iff.1 (List.find?_some hfound))
  | case2 i hnone => rwa [innermost_of_none hnone]

/-- Behind the first child with an offset, only another child has it, and nothing below that child. -/
theorem eq_of_behind (h : doc.Laid length) {c c' : ElementId}
    (hc : doc.Child i c) (hc' : doc.Child i c') (hlt : c < c') (habove : doc.Above c' j)
    (hfirst : doc.Contains c offset) (hj : doc.Contains j offset) : j = c' := by
  obtain ⟨e, he, -, hstop⟩ := hfirst
  obtain ⟨e', he', hstart', -⟩ := h.contains_of_above habove hj
  obtain ⟨f, hf, hstart, -⟩ := hj
  have hparent : doc.parent? c = doc.parent? c' :=
    ((h.child_iff i c).1 hc).trans ((h.child_iff i c').1 hc').symm
  have hapart := h.apart hparent hlt he he'
  by_contra hne
  have := h.starts he' hf (Nat.lt_of_le_of_ne (h.le_of_above habove) (Ne.symm hne))
  omega

theorem depth_le_innermost (h : doc.Laid length) (habove : doc.Above i j)
    (hj : doc.Contains j offset) : doc.depth j ≤ doc.depth (doc.innermost offset i) := by
  induction i using innermost.induct doc offset with
  | case1 i c hfound ih =>
    rw [innermost_of_find? hfound]
    obtain ⟨hfirst, before, behind, hbelow, hbefore⟩ := List.find?_eq_some_iff_append.1 hfound
    have hc : doc.Child i c := h.mem_below_iff.1 (List.mem_of_find?_eq_some hfound)
    have hdeep := h.depth_le_of_above (h.mem_subtree_iff.1 (innermost_mem_subtree doc offset c))
    have hchild := h.depth_child hc
    rcases Relation.ReflTransGen.cases_head habove with rfl | ⟨c', hc', habove'⟩
    · omega
    · have htouch := h.touches_iff.2 (h.contains_of_above habove' hj)
      have hmem := h.mem_below_iff.2 hc'
      have hascending := h.ascending_below i
      rw [hbelow] at hmem hascending
      rcases List.mem_append.1 hmem with hmem | hmem
      · have := hbefore c' hmem
        simp [htouch] at this
      · rcases hmem with _ | ⟨_, hmem⟩
        · exact ih habove'
        · -- What is found is a child or deeper, and the offset is one of a child.
          have hlt : c < c' :=
            (List.pairwise_cons.1 (List.pairwise_append.1 hascending).2.1).1 c' hmem
          obtain rfl := h.eq_of_behind hc hc' hlt habove' (h.touches_iff.1 hfirst) hj
          rw [h.depth_child hc']
          omega
  | case2 i hnone =>
    rw [innermost_of_none hnone]
    rcases Relation.ReflTransGen.cases_head habove with rfl | ⟨c', hc', habove'⟩
    · exact Nat.le_refl _
    · have htouch := h.touches_iff.2 (h.contains_of_above habove' hj)
      exact absurd htouch (List.find?_eq_none.1 hnone c' (h.mem_below_iff.2 hc'))

end Laid

/-! ## Documents that have been read -/

/-- A walk comes to the elements of the root's tree, in the order of their numbers and of their starts. -/
structure WalksInOrder (doc : Document) : Prop where
  mem : ∀ i, i ∈ doc.descendants ↔ doc.Reached i
  ids : doc.descendants.Pairwise (· < ·)
  starts : doc.descendants.Pairwise fun i j =>
    ∃ e e', doc.element? i = some e ∧ doc.element? j = some e' ∧ e.start < e'.start

/-- There is an element at the offsets of the root, and none with the offset is deeper in its tree. -/
structure FindsInnermost (doc : Document) : Prop where
  found : ∀ offset,
    (doc.elementAt? offset).isSome ↔ ∃ root, doc.root? = some root ∧ doc.Contains root offset
  innermost : ∀ offset i, doc.elementAt? offset = some i → doc.Reached i ∧ doc.Contains i offset ∧
    ∀ j, doc.Reached j → doc.Contains j offset → doc.depth j ≤ doc.depth i

theorem InOrder.walksInOrder (h : doc.InOrder) : doc.WalksInOrder := by
  refine ⟨fun _ => h.mem_descendants_iff, h.ascending_descendants, ?_⟩
  refine h.ascending_descendants.imp_of_mem fun {i j} hi hj hlt => ?_
  have hsize := h.descendants_lt
  have hexists : ∀ k ∈ doc.descendants, ∃ e, doc.element? k = some e := fun k hk =>
    ⟨_, Array.getElem?_eq_getElem (hsize k hk)⟩
  obtain ⟨e, he⟩ := hexists i hi
  obtain ⟨e', he'⟩ := hexists j hj
  exact ⟨e, e', he, he', h.starts he he' hlt⟩

theorem Laid.findsInnermost (h : doc.Laid length) : doc.FindsInnermost := by
  have hroot : ∀ {offset root}, doc.root?.filter (doc.touches offset) = some root ↔
      doc.root? = some root ∧ doc.Contains root offset := by
    intro offset root
    rw [Option.filter_eq_some_iff, h.touches_iff]
  refine ⟨fun offset => ?_, fun offset i hi => ?_⟩
  · rw [elementAt?, Option.isSome_map, Option.isSome_iff_exists]
    exact exists_congr fun root => hroot
  · obtain ⟨root, hfound, rfl⟩ := Option.map_eq_some_iff.1 hi
    obtain ⟨hr, hcontains⟩ := hroot.1 hfound
    refine ⟨h.mem_descendants_iff.1 (mem_descendants_of_elementAt? hi),
      h.contains_innermost hcontains, fun j ⟨root', hr', habove⟩ hj => ?_⟩
    rw [hr] at hr'
    cases hr'
    exact h.depth_le_innermost habove hj

/-- The elements of a document that has been read are nested, a walk comes to them in order, and the
element at an offset is an innermost one. -/
theorem nesting_ofText {id : DocumentId} {path : String} {text : List Char}
    (h : ofText id path text = .ok doc) :
    doc.Laid (byteLength text) ∧ doc.WalksInOrder ∧ doc.FindsInnermost :=
  have hlaid := laid_ofText h
  ⟨hlaid, hlaid.walksInOrder, hlaid.findsInnermost⟩

/-- Where one sibling ends and the next one starts, the first one is found. -/
theorem nesting_ofText_siblings : ∃ doc, ofText 0 "" "<A><B/><C/></A>".toList = .ok doc ∧
    doc.elementAt? 7 = some 1 ∧
    doc.Laid (byteLength "<A><B/><C/></A>".toList) ∧ doc.WalksInOrder ∧ doc.FindsInnermost := by
  have hfound : ((ofText 0 "" "<A><B/><C/></A>".toList).toOption.bind (·.elementAt? 7)) = some 1 := by
    decide +kernel
  cases hread : ofText 0 "" "<A><B/><C/></A>".toList with
  | error failure =>
    rw [hread] at hfound
    cases hfound
  | ok doc =>
    rw [hread] at hfound
    exact ⟨doc, rfl, hfound, nesting_ofText hread⟩

end Document
end Markup
end UILayout
