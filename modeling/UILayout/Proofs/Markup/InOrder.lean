import UILayout.Proofs.Markup.Tree

/-!
# UILayout.Proofs.Markup.InOrder

In a document that has been read, elements are numbered in the order of their start tags, and a walk
down comes to them in this order: all elements that start between an element and one of its children
are below the element as well.

* `Reader.State.Ordered.push`: what a start tag adds stands behind all that is there, below the
  innermost open element.
* `Document.inOrder_ofText`: documents that have been read.
* `Document.InOrder.ascending_descendants`: the order of a walk.
-/

namespace UILayout
namespace Markup

open Text

/-- The elements of a document start one after the other, each with all below it before the next. -/
structure Document.InOrder (doc : Document) : Prop extends doc.Tree where
  starts : ∀ {i j : ElementId} {e e' : Element}, doc.element? i = some e → doc.element? j = some e' →
    i < j → e.start < e'.start
  between : ∀ {parent k child : ElementId}, doc.parent? child = some parent → parent < k → k < child →
    ∃ q, doc.parent? k = some q ∧ parent ≤ q

namespace Reader

/-- A state between two pieces. All elements have started, and those behind an open one are below it. -/
structure State.Ordered (read : List Char) (st : State) : Prop where
  document : st.document.InOrder
  started : ∀ j e, st.document.element? j = some e → e.start < byteLength read
  descending : (st.openElements.map (·.1)).Pairwise (· > ·)
  present : ∀ o ∈ st.openElements.map (·.1), o < st.document.size
  inside : ∀ o ∈ st.openElements.map (·.1), ∀ k, o < k → k < st.document.size →
    ∃ q, st.document.parent? k = some q ∧ o ≤ q

variable {text : List Char} {st next : State} {read more : List Char} {found : Cut}

theorem State.Ordered.append (h : st.Ordered read) (more : List Char) : st.Ordered (read ++ more) := by
  refine ⟨h.document, fun j e he => ?_, h.descending, h.present, h.inside⟩
  rw [byteLength_append]
  exact Nat.lt_add_right _ (h.started j e he)

/-- No open element is behind the innermost one. -/
theorem State.Ordered.le_of_head {st : State} (h : st.Ordered read) {innermost o : ElementId}
    (hinnermost : st.openElements.head?.map (·.1) = some innermost)
    (ho : o ∈ st.openElements.map (·.1)) : o ≤ innermost := by
  have hdescending := h.descending
  cases hopen : st.openElements with
  | nil => simp [hopen] at ho
  | cons first rest =>
    rw [hopen] at hinnermost ho hdescending
    cases hinnermost
    rw [List.map_cons] at ho hdescending
    rcases List.mem_cons.1 ho with rfl | ho
    · exact Nat.le_refl _
    · exact Nat.le_of_lt ((List.pairwise_cons.1 hdescending).1 o ho)

/-- A new element starts behind all others, and is put below the innermost open one. -/
theorem State.Ordered.push (h : st.Ordered read) {e : Element} (hstart : e.start = byteLength read)
    (he : e.children = []) (hmore : 0 < byteLength more) :
    State.Ordered (read ++ more)
      { st with document := (st.document.push (st.openElements.head?.map (·.1)) e).1 } := by
  generalize hparent : st.openElements.head?.map (·.1) = parent?
  have hopen : ∀ innermost, parent? = some innermost → innermost ∈ st.openElements.map (·.1) := by
    rintro innermost rfl
    obtain ⟨o, ho, rfl⟩ := Option.map_eq_some_iff.1 hparent
    exact List.mem_map_of_mem (List.mem_of_head? ho)
  have hold : ∀ {j e'}, (st.document.push parent? e).1.element? j = some e' →
      (∃ old, st.document.element? j = some old ∧ e'.start = old.start) ∨
        j = st.document.size ∧ e'.start = byteLength read := by
    intro j e' he'
    obtain ⟨old, hold | ⟨hj, rfl⟩, children, parent?', rfl⟩ := Document.exists_of_element?_push he'
    · exact .inl ⟨old, hold, rfl⟩
    · exact .inr ⟨hj, hstart⟩
  refine ⟨⟨h.document.toTree.push (fun p hp => h.present p (hopen p hp)) he, ?_, ?_⟩, ?_,
    h.descending, ?_, ?_⟩
  · intro i j a b ha hb hij
    have hjle : j ≤ st.document.size := by
      have hlt := Document.lt_size_of_element? hb
      rw [Document.size_push] at hlt
      exact Nat.lt_succ_iff.1 hlt
    rcases hold ha with ⟨old, hi, heq⟩ | ⟨hi, -⟩
    · rw [heq]
      rcases hold hb with ⟨old', hj, heq'⟩ | ⟨-, hnew⟩
      · rw [heq']
        exact h.document.starts hi hj hij
      · rw [hnew]
        exact h.started i old hi
    · exact absurd hij (Nat.not_lt.2 (hi ▸ hjle))
  · intro parent k child hchild hk hkc
    rw [Document.parent?_push] at hchild ⊢
    split at hchild
    · rename_i hnew
      rw [if_neg (Nat.ne_of_lt (hnew ▸ hkc))]
      exact h.inside parent (hopen parent hchild) k hk (hnew ▸ hkc)
    · obtain ⟨_, hp, hmem⟩ := (h.document.child_iff parent child).2 hchild
      have hlt := (h.document.children hp child hmem).2
      rw [if_neg (Nat.ne_of_lt (Nat.lt_trans hkc hlt))]
      exact h.document.between hchild hk hkc
  · intro j e' he'
    rw [byteLength_append]
    rcases hold he' with ⟨old, hj, heq⟩ | ⟨-, heq⟩
    · have := h.started j old hj
      omega
    · omega
  · intro o ho
    rw [Document.size_push]
    exact Nat.lt_succ_of_lt (h.present o ho)
  · intro o ho k hk hlt
    rw [Document.size_push] at hlt
    rw [Document.parent?_push]
    split
    · cases hinnermost : parent? with
      | none =>
        rw [hinnermost, Option.map_eq_none_iff, List.head?_eq_none_iff] at hparent
        simp [hparent] at ho
      | some innermost => exact ⟨innermost, rfl, h.le_of_head (hparent.trans hinnermost) ho⟩
    · rename_i hne
      exact h.inside o ho k hk (Nat.lt_of_le_of_ne (Nat.lt_succ_iff.1 hlt) hne)

theorem State.Ordered.opening (h : st.Ordered read) {e : Element} (hstart : e.start = byteLength read)
    (he : e.children = []) (hmore : 0 < byteLength more) (name : List Char) :
    State.Ordered (read ++ more)
      ⟨(st.document.push (st.openElements.head?.map (·.1)) e).1,
        (st.document.size, name) :: st.openElements⟩ := by
  have hpushed := h.push hstart he hmore
  refine ⟨hpushed.document, hpushed.started, List.pairwise_cons.2 ⟨h.present, h.descending⟩, ?_, ?_⟩
  · intro o ho
    rcases List.mem_cons.1 ho with rfl | ho
    · rw [Document.size_push]
      exact Nat.lt_succ_self _
    · exact hpushed.present o ho
  · intro o ho k hk hlt
    rcases List.mem_cons.1 ho with rfl | ho
    · rw [Document.size_push] at hlt
      exact absurd hk (Nat.not_lt.2 (Nat.lt_succ_iff.1 hlt))
    · exact hpushed.inside o ho k hk hlt

end Reader

namespace Document.InOrder

variable {doc : Document}

/-- A change that moves no element keeps the order. -/
theorem of_places {doc' : Document} (h : doc.InOrder) (hroot : doc'.root? = doc.root?)
    (hplaces : doc'.SamePlaces doc)
    (hstarts : ∀ j, (doc'.element? j).map (·.start) = (doc.element? j).map (·.start)) :
    doc'.InOrder := by
  have hold : ∀ {j e'}, doc'.element? j = some e' →
      ∃ e, doc.element? j = some e ∧ e.start = e'.start := by
    intro j e' he'
    have hj := hstarts j
    rw [he', Option.map_some] at hj
    exact Option.map_eq_some_iff.1 hj.symm
  refine ⟨h.toTree.of_places hroot hplaces, fun ha hb hij => ?_, fun hchild hk hkc => ?_⟩
  · obtain ⟨a, ha, hstarta⟩ := hold ha
    obtain ⟨b, hb, hstartb⟩ := hold hb
    rw [← hstarta, ← hstartb]
    exact h.starts ha hb hij
  · rw [hplaces.parent?_eq] at hchild ⊢
    exact h.between hchild hk hkc

theorem modify (h : doc.InOrder) (id : ElementId) {f : Element → Element}
    (hchildren : ∀ e, (f e).children = e.children) (hparent : ∀ e, (f e).parent? = e.parent?)
    (hstart : ∀ e, (f e).start = e.start) : (doc.modify id f).InOrder := by
  refine h.of_places rfl (samePlaces_modify doc id hchildren hparent) fun j => ?_
  rw [element?_modify, Option.map_map]
  refine congrArg (Option.map · _) (funext fun e => ?_)
  dsimp only [Function.comp_apply]
  split
  · exact hstart e
  · rfl

theorem bind (h : doc.InOrder) (s : Schema) : (s.bind doc).InOrder := by
  refine h.of_places rfl (samePlaces_bind s doc) fun j => ?_
  rw [Schema.element?_bind, Option.map_map]
  rfl

end Document.InOrder

namespace Reader

variable {text : List Char} {st next : State} {read : List Char} {found : Cut}

theorem State.Ordered.closing (h : st.Ordered read) {element : ElementId} {name : List Char}
    {outer : List (ElementId × List Char)} (hopen : st.openElements = (element, name) :: outer)
    (stop : Nat) :
    State.Ordered read
      ⟨st.document.modify element fun e => { e with stop := stop, closed := true }, outer⟩ := by
  have houter : ∀ o ∈ outer.map (·.1), o ∈ st.openElements.map (·.1) := by
    intro o ho
    rw [hopen]
    exact List.mem_cons_of_mem _ ho
  have hdescending := h.descending
  rw [hopen, List.map_cons, List.pairwise_cons] at hdescending
  refine ⟨h.document.modify element (fun _ => rfl) (fun _ => rfl) fun _ => rfl, fun j e' he' => ?_,
    hdescending.2, fun o ho => ?_, fun o ho k hk hlt => ?_⟩
  · rw [Document.element?_modify] at he'
    obtain ⟨e, he, rfl⟩ := Option.map_eq_some_iff.1 he'
    split
    · exact h.started j e he
    · exact h.started j e he
  · rw [Document.size_modify]
    exact h.present o (houter o ho)
  · rw [Document.size_modify] at hlt
    have hplaces := Document.samePlaces_modify st.document element
      (f := fun e => { e with stop := stop, closed := true }) (fun _ => rfl) fun _ => rfl
    rw [hplaces.parent?_eq]
    exact h.inside o (houter o ho) k hk hlt

theorem ordered_empty (id : DocumentId) (path : String) :
    State.Ordered [] ⟨Document.empty id path, []⟩ := by
  refine ⟨⟨.empty id path, fun he => ?_, fun hchild => ?_⟩, fun j e he => ?_, .nil, nofun, nofun⟩
  · simp [Document.element?, Document.empty] at he
  · simp [Document.parent?, Document.element?, Document.empty] at hchild
  · simp [Document.element?, Document.empty] at he

theorem ordered_step (mid : List Char) (h : Steps text (byteLength read) found st next)
    (hst : st.Ordered read) :
    next.Ordered (read ++ ('<' :: mid ++ ['>'])) := by
  have hmore : 0 < byteLength ('<' :: mid ++ ['>']) := by
    have hopen : '<'.utf8Size = 1 := rfl
    rw [List.cons_append, byteLength_cons, hopen]
    omega
  cases h with
  | @empty content e hpiece he =>
    obtain ⟨-, hstart, -, -, hchildren⟩ := StartTag.element_spec he
    exact hst.push (e := { e with stop := found.stop, closed := true }) hstart hchildren hmore
  | opening hpiece he =>
    obtain ⟨-, hstart, -, -, hchildren⟩ := StartTag.element_spec he
    exact hst.opening hstart hchildren hmore _
  | closing hopen => exact (hst.append _).closing hopen _
  | passed => exact hst.append _

end Reader

namespace Document

theorem inOrder_ofText {id : DocumentId} {path : String} {text : List Char} {doc : Document}
    (h : ofText id path text = .ok doc) : doc.InOrder := by
  obtain ⟨st, hst, rfl⟩ := exists_of_ofText h
  have hread : st.Ordered (Reader.withoutMark text) := by
    refine @Reader.loop_induct text _ (fun read st => st.Ordered read) ?_ ?_ _ _ [] _ rfl hst ?_
    · exact fun c hst => hst.append [c]
    · intro st next before cs mid found _ _ hstep hst
      have := Reader.ordered_step mid (Reader.steps_of_step hstep) hst
      rwa [← List.append_assoc] at this
    · exact Reader.ordered_empty id path
  replace hread := hread.document
  clear hst
  generalize st.document = doc at hread
  induction st.openElements generalizing doc with
  | nil => exact hread
  | cons element rest ih =>
    exact ih _ (hread.modify element.1 (fun _ => rfl) (fun _ => rfl) fun _ => rfl)

namespace InOrder

variable {doc : Document}

/-- What is below a child comes before the children behind it. -/
theorem lt_of_above (h : doc.InOrder) {parent c c' j : ElementId} (hc : doc.Child parent c)
    (hc' : doc.Child parent c') (hlt : c < c') (hj : doc.Above c j) : j < c' := by
  have hparent := h.parent_lt ((h.child_iff _ _).1 hc)
  induction hj with
  | refl => exact hlt
  | @tail p j hp hchild ih =>
    have hcp := h.le_of_above hp
    refine Nat.lt_of_not_le fun hle => ?_
    rcases Nat.lt_or_eq_of_le hle with hbehind | rfl
    · obtain ⟨q, hq, hpq⟩ := h.between ((h.child_iff _ _).1 hchild) ih hbehind
      obtain rfl := h.child_unique hc' ((h.child_iff _ _).2 hq)
      exact absurd (Nat.le_trans hcp hpq) (Nat.not_le.2 hparent)
    · obtain rfl := h.child_unique hc' hchild
      exact absurd hcp (Nat.not_le.2 hparent)

/-- An element between another one and a child of that is below it, with all below itself in front of
the child. -/
theorem lt_of_between (h : doc.InOrder) {parent child d x : ElementId} (hchild : doc.Child parent child)
    (hd : parent < d) (hlt : d < child) (hx : doc.Above d x) : x < child := by
  have habove : doc.Above parent d := by
    clear hx
    induction d using Nat.strongRecOn with
    | ind d ih =>
      obtain ⟨q, hq, hle⟩ := h.between ((h.child_iff _ _).1 hchild) hd hlt
      have hqd := h.parent_lt hq
      have hqabove : doc.Above parent q := by
        rcases Nat.lt_or_eq_of_le hle with hlt' | rfl
        · exact ih q hqd hlt' (Nat.lt_trans hqd hlt)
        · exact .refl
      exact hqabove.tail ((h.child_iff _ _).2 hq)
  rcases Relation.ReflTransGen.cases_head habove with rfl | ⟨c, hc, hcd⟩
  · exact absurd hd (Nat.lt_irrefl _)
  · exact h.lt_of_above hc hchild (Nat.lt_of_le_of_lt (h.le_of_above hcd) hlt) (hcd.trans hx)

theorem start_lt_iff (h : doc.InOrder) {i j : ElementId} {e e' : Element} (he : doc.element? i = some e)
    (he' : doc.element? j = some e') : e.start < e'.start ↔ i < j := by
  refine ⟨fun hlt => Nat.lt_of_not_le fun hle => ?_, h.starts he he'⟩
  rcases Nat.lt_or_eq_of_le hle with hji | rfl
  · exact absurd (h.starts he' he hji) (Nat.lt_asymm hlt)
  · rw [he] at he'
    cases he'
    exact Nat.lt_irrefl _ hlt

theorem ascending_subtree (h : doc.InOrder) (id : ElementId) : (doc.subtree id).Pairwise (· < ·) := by
  induction id using subtree.induct doc with
  | case1 id ih =>
    rw [subtree_eq_flatMap, List.pairwise_cons, List.pairwise_flatMap]
    refine ⟨fun j hj => ?_, ih, ?_⟩
    · obtain ⟨child, hchild, hmem⟩ := List.mem_flatMap.1 hj
      exact Nat.lt_of_lt_of_le (below_lt hchild).1 (h.le_of_above (h.mem_subtree_iff.1 hmem))
    · refine (h.ascending_below id).imp_of_mem fun {c c'} hc hc' hlt j hj j' hj' => ?_
      exact Nat.lt_of_lt_of_le
        (h.lt_of_above (h.mem_below_iff.1 hc) (h.mem_below_iff.1 hc') hlt (h.mem_subtree_iff.1 hj))
        (h.le_of_above (h.mem_subtree_iff.1 hj'))

theorem ascending_descendants (h : doc.InOrder) : doc.descendants.Pairwise (· < ·) := by
  unfold descendants
  cases doc.root? with
  | none => exact .nil
  | some root => exact h.ascending_subtree root

end InOrder

end Document

end Markup
end UILayout
