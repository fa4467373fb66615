import UILayout.Proofs.Markup.InOrder

/-!
# UILayout.Proofs.Markup.Laid

Where the elements of a document stand in its text. While a text is read, the elements that are open lie
around one another and around all that comes next; an element that is closed has all below it closed, and
stands in front of all that comes next.

* `Laying.push`, `Laying.close`: what a start tag and an end tag keep.
* `laid_ofText`: children stand inside their parents, and siblings one behind the other.
-/

namespace UILayout
namespace Markup

open Text

namespace Document

variable {doc : Document} {opened opened' outer : List ElementId} {length length' stop : Nat}
  {e : Element} {f : Element → Element}

/-- The elements of a document of which `length` bytes have been read, and of which those in `opened`
have no end yet. -/
structure Laying (doc : Document) (opened : List ElementId) (length : Nat) : Prop where
  tag : ∀ {i e}, doc.element? i = some e → e.start < e.tagStop ∧ e.tagStop ≤ length
  shut : ∀ {i e}, doc.element? i = some e → i ∉ opened → e.tagStop ≤ e.stop ∧ e.stop ≤ length
  within : ∀ {parent child p c}, doc.parent? child = some parent → doc.element? parent = some p →
    doc.element? child = some c →
    p.tagStop ≤ c.start ∧ (parent ∉ opened → child ∉ opened ∧ c.stop ≤ p.stop)
  apart : ∀ {i j e e'}, doc.parent? i = doc.parent? j → i < j → doc.element? i = some e →
    doc.element? j = some e' → i ∉ opened ∧ e.stop ≤ e'.start

namespace Laying

theorem mono (h : doc.Laying opened length) (hle : length ≤ length') : doc.Laying opened length' where
  tag he := ⟨(h.tag he).1, (h.tag he).2.trans hle⟩
  shut he hi := ⟨(h.shut he hi).1, (h.shut he hi).2.trans hle⟩
  within := h.within
  apart := h.apart

/-- An element that was there before another one was pushed has kept its offsets. -/
theorem exists_of_push {parent? : Option ElementId} {j : ElementId} {e' : Element}
    (he' : (doc.push parent? e).1.element? j = some e') (hj : j ≠ doc.size) :
    ∃ old, doc.element? j = some old ∧ e'.start = old.start ∧ e'.tagStop = old.tagStop ∧
      e'.stop = old.stop := by
  obtain ⟨old, hold | ⟨hnew, -⟩, _, _, rfl⟩ := exists_of_element?_push he'
  · exact ⟨old, hold, rfl, rfl, rfl⟩
  · exact absurd hnew hj

theorem offsets_of_pushed {parent? : Option ElementId} {e' : Element}
    (he' : (doc.push parent? e).1.element? doc.size = some e') :
    e'.start = e.start ∧ e'.tagStop = e.tagStop ∧ e'.stop = e.stop := by
  obtain ⟨old, hold | ⟨-, rfl⟩, _, _, rfl⟩ := exists_of_element?_push he'
  · exact absurd (lt_size_of_element? hold) (Nat.lt_irrefl _)
  · exact ⟨rfl, rfl, rfl⟩

/-- An open element is around all that come next, so the siblings of a new element are closed. -/
theorem not_mem_of_sibling (htree : doc.Tree)
    (hinner : ∀ o ∈ opened, ∀ inner, opened.head? = some inner → o ≤ inner) {i : ElementId}
    (hparent : doc.parent? i = opened.head?) : i ∉ opened := by
  intro hi
  cases hhead : opened.head? with
  | none => exact List.ne_nil_of_mem hi (List.head?_eq_none_iff.1 hhead)
  | some inner =>
    have hlt := htree.parent_lt (hparent.trans hhead)
    exact absurd (hinner i hi inner hhead) (Nat.not_le.2 hlt)

/-- A start tag comes behind all that has been read, below the innermost open element. -/
theorem push (h : doc.Laying opened length) (htree : doc.Tree) (hpresent : ∀ o ∈ opened, o < doc.size)
    (hinner : ∀ o ∈ opened, ∀ inner, opened.head? = some inner → o ≤ inner)
    (hstart : e.start = length) (htag : e.tagStop = length') (hlt : length < length')
    (hsame : ∀ i, i ≠ doc.size → (i ∈ opened' ↔ i ∈ opened))
    (hshut : doc.size ∉ opened' → e.stop = length') :
    (doc.push opened.head? e).1.Laying opened' length' := by
  refine ⟨?tag, ?shut, ?within, ?apart⟩
  case tag =>
    intro i e' he'
    by_cases hnew : i = doc.size
    · subst hnew
      obtain ⟨hstart', htag', -⟩ := offsets_of_pushed he'
      omega
    · obtain ⟨old, hold, hstart', htag', -⟩ := exists_of_push he' hnew
      have := h.tag hold
      omega
  case shut =>
    intro i e' he' hi
    by_cases hnew : i = doc.size
    · subst hnew
      obtain ⟨-, htag', hstop'⟩ := offsets_of_pushed he'
      have := hshut hi
      omega
    · obtain ⟨old, hold, -, htag', hstop'⟩ := exists_of_push he' hnew
      have := h.shut hold (mt (hsame i hnew).2 hi)
      omega
  case within =>
    intro parent child p c hchild hp hc
    rw [parent?_push] at hchild
    split at hchild
    · rename_i hnew
      subst hnew
      have hmem := List.mem_of_head? hchild
      have hne := Nat.ne_of_lt (hpresent parent hmem)
      obtain ⟨old, hold, -, htag', -⟩ := exists_of_push hp hne
      obtain ⟨hstart', -⟩ := offsets_of_pushed hc
      have := h.tag hold
      exact ⟨by omega, fun hclosed => absurd ((hsame parent hne).2 hmem) hclosed⟩
    · rename_i hold
      obtain ⟨c', hc', hcstart, -, hcstop⟩ := exists_of_push hc hold
      have hne : parent ≠ doc.size :=
        Nat.ne_of_lt ((htree.parent_lt hchild).trans (lt_size_of_element? hc'))
      obtain ⟨p', hp', -, hptag, hpstop⟩ := exists_of_push hp hne
      rw [hcstart, hcstop, hptag, hpstop, hsame parent hne, hsame child hold]
      exact h.within hchild hp' hc'
  case apart =>
    intro i j a b hparent hij ha hb
    have hsize := lt_size_of_element? hb
    rw [size_push] at hsize
    have hne : i ≠ doc.size := Nat.ne_of_lt (hij.trans_le (Nat.lt_succ_iff.1 hsize))
    obtain ⟨a', ha', -, -, hastop⟩ := exists_of_push ha hne
    rw [parent?_push, parent?_push, if_neg hne] at hparent
    rw [hastop, hsame i hne]
    split at hparent
    · rename_i hnew
      subst hnew
      obtain ⟨hbstart, -⟩ := offsets_of_pushed hb
      have hclosed := not_mem_of_sibling htree hinner hparent
      have := h.shut ha' hclosed
      exact ⟨hclosed, by omega⟩
    · rename_i hold
      obtain ⟨b', hb', hbstart, -⟩ := exists_of_push hb hold
      rw [hbstart]
      exact h.apart hparent hij ha' hb'

/-- A change that puts the end of an element at `stop`, and leaves its start tag and its place. -/
structure Ends (f : Element → Element) (stop : Nat) : Prop where
  children : ∀ e, (f e).children = e.children
  parent : ∀ e, (f e).parent? = e.parent?
  start : ∀ e, (f e).start = e.start
  tag : ∀ e, (f e).tagStop = e.tagStop
  stop : ∀ e, (f e).stop = stop

theorem Ends.exists_of_modify (hf : Ends f stop) {element j : ElementId} {e' : Element}
    (he' : (doc.modify element f).element? j = some e') :
    ∃ old, doc.element? j = some old ∧ e'.start = old.start ∧ e'.tagStop = old.tagStop ∧
      e'.stop = if j = element then stop else old.stop := by
  rw [element?_modify] at he'
  obtain ⟨old, hold, rfl⟩ := Option.map_eq_some_iff.1 he'
  refine ⟨old, hold, ?_⟩
  by_cases hj : j = element
  · simp [hj, hf.start, hf.tag, hf.stop]
  · simp [hj, Ne.symm hj]

/-- An end tag closes the innermost open element, below which all are closed. -/
theorem close {element : ElementId} (h : doc.Laying (element :: outer) length) (htree : doc.Tree)
    (houter : ∀ o ∈ outer, o < element) (hle : length ≤ stop) (hf : Ends f stop) :
    (doc.modify element f).Laying outer stop := by
  have hsame := samePlaces_modify doc element hf.children hf.parent
  refine ⟨?tag, ?shut, ?within, ?apart⟩
  case tag =>
    intro i e' he'
    obtain ⟨old, hold, hstart', htag', -⟩ := hf.exists_of_modify he'
    have := h.tag hold
    omega
  case shut =>
    intro i e' he' hi
    obtain ⟨old, hold, -, htag', hstop'⟩ := hf.exists_of_modify he'
    have := h.tag hold
    split at hstop'
    · omega
    · rename_i hne
      have := h.shut hold (List.not_mem_cons_of_ne_of_not_mem hne hi)
      omega
  case within =>
    intro parent child p c hchild hp hc
    rw [hsame.parent?_eq] at hchild
    have hbelow := htree.parent_lt hchild
    obtain ⟨p', hp', -, hptag, hpstop⟩ := hf.exists_of_modify hp
    obtain ⟨c', hc', hcstart, -, hcstop⟩ := hf.exists_of_modify hc
    obtain ⟨hbehind, hclosed⟩ := h.within hchild hp' hc'
    refine ⟨by omega, fun hparent => ?_⟩
    split at hpstop
    · -- The open elements are around the one that is closed, so all below it are closed.
      rename_i heq
      subst heq
      have hne : child ≠ parent := Nat.ne_of_gt hbelow
      have hmem : child ∉ outer := fun hmem => Nat.lt_asymm hbelow (houter child hmem)
      have := h.shut hc' (List.not_mem_cons_of_ne_of_not_mem hne hmem)
      rw [if_neg hne] at hcstop
      exact ⟨hmem, by omega⟩
    · rename_i hne
      obtain ⟨hmem, hle⟩ := hclosed (List.not_mem_cons_of_ne_of_not_mem hne hparent)
      rw [if_neg (List.ne_of_not_mem_cons hmem)] at hcstop
      exact ⟨List.not_mem_of_not_mem_cons hmem, by omega⟩
  case apart =>
    intro i j a b hij hlt ha hb
    rw [hsame.parent?_eq, hsame.parent?_eq] at hij
    obtain ⟨a', ha', -, -, hastop⟩ := hf.exists_of_modify ha
    obtain ⟨b', hb', hbstart, -⟩ := hf.exists_of_modify hb
    obtain ⟨hmem, hle⟩ := h.apart hij hlt ha' hb'
    rw [if_neg (List.ne_of_not_mem_cons hmem)] at hastop
    exact ⟨List.not_mem_of_not_mem_cons hmem, by omega⟩

/-- At the end of the text, the elements that are still open are closed from the innermost on. -/
theorem close_all {elements : List (ElementId × List Char)}
    (h : doc.Laying (elements.map (·.1)) length) (htree : doc.Tree)
    (hdescending : (elements.map (·.1)).Pairwise (· > ·)) (hle : length ≤ stop) :
    (elements.foldl (fun doc element => doc.modify element.1 fun e => { e with stop := stop })
      doc).Laying [] stop := by
  induction elements generalizing doc length with
  | nil => exact h.mono hle
  | cons element rest ih =>
    obtain ⟨houter, hrest⟩ := List.pairwise_cons.1 hdescending
    have hf : Ends (fun e => { e with stop := stop }) stop :=
      ⟨fun _ => rfl, fun _ => rfl, fun _ => rfl, fun _ => rfl, fun _ => rfl⟩
    exact ih (h.close htree houter hle hf) (htree.modify _ hf.children hf.parent) hrest le_rfl

end Laying

end Document

namespace Reader

variable {text : List Char} {st next : State} {read cs mid : List Char} {found : Cut}

/-- A state between two pieces. -/
structure State.Laying (read : List Char) (st : State) : Prop where
  ordered : st.Ordered read
  laying : st.document.Laying (st.openElements.map (·.1)) (byteLength read)

theorem State.Laying.append (h : st.Laying read) (more : List Char) : st.Laying (read ++ more) := by
  refine ⟨h.ordered.append more, h.laying.mono ?_⟩
  rw [byteLength_append]
  exact Nat.le_add_right _ _

theorem laying_step (hcovers : found.Covers (byteLength read) cs mid)
    (h : Steps text (byteLength read) found st next) (hst : st.Laying read) :
    next.Laying (read ++ '<' :: mid ++ ['>']) := by
  have hordered : next.Ordered (read ++ '<' :: mid ++ ['>']) := by
    rw [List.append_assoc]
    exact ordered_step mid h hst.ordered
  have hstop := hcovers.stop_eq
  have hlt : byteLength read < byteLength (read ++ '<' :: mid ++ ['>']) := by
    have := hcovers.stop
    omega
  have htree := hst.ordered.document.toTree
  have hinner : ∀ o ∈ st.openElements.map (·.1),
      ∀ inner, (st.openElements.map (·.1)).head? = some inner → o ≤ inner := by
    intro o ho inner hhead
    rw [List.head?_map] at hhead
    exact hst.ordered.le_of_head hhead ho
  refine ⟨hordered, ?_⟩
  cases h with
  | @empty content e hpiece he =>
    obtain ⟨-, hstart, htag, -, -⟩ := StartTag.element_spec he
    rw [← List.head?_map]
    exact hst.laying.push (e := { e with stop := found.stop, closed := true }) htree hst.ordered.present
      hinner hstart (htag.trans hstop) hlt (fun _ _ => Iff.rfl) fun _ => hstop
  | @opening content name e hpiece he =>
    obtain ⟨-, hstart, htag, -, -⟩ := StartTag.element_spec he
    rw [← List.head?_map]
    refine hst.laying.push htree hst.ordered.present hinner hstart (htag.trans hstop) hlt
      (fun i hi => ?_) fun hnew => ?_
    · rw [List.map_cons, List.mem_cons, or_iff_right hi]
    · exact absurd List.mem_cons_self hnew
  | @closing element name outer houter =>
    have hlaying := hst.laying
    have hdescending := hst.ordered.descending
    rw [houter, List.map_cons] at hlaying hdescending
    exact hlaying.close htree (List.pairwise_cons.1 hdescending).1 hlt.le
      ⟨fun _ => rfl, fun _ => rfl, fun _ => rfl, fun _ => rfl, fun _ => hstop⟩
  | passed => exact hst.laying.mono hlt.le

end Reader

namespace Document

variable {doc : Document} {length : Nat}

/-- The elements of a document stand inside their parents, behind the start tag, and one behind the other
in a text of `length` bytes. Elements without a parent stand one behind the other as well. -/
structure Laid (doc : Document) (length : Nat) : Prop extends doc.InOrder where
  tag : ∀ {i e}, doc.element? i = some e →
    e.start < e.tagStop ∧ e.tagStop ≤ e.stop ∧ e.stop ≤ length
  within : ∀ {parent child p c}, doc.parent? child = some parent → doc.element? parent = some p →
    doc.element? child = some c → p.tagStop ≤ c.start ∧ c.stop ≤ p.stop
  apart : ∀ {i j e e'}, doc.parent? i = doc.parent? j → i < j → doc.element? i = some e →
    doc.element? j = some e' → e.stop ≤ e'.start

theorem Laying.laid (h : doc.Laying [] length) (horder : doc.InOrder) : doc.Laid length where
  toInOrder := horder
  tag he := ⟨(h.tag he).1, h.shut he List.not_mem_nil⟩
  within hchild hp hc :=
    ⟨(h.within hchild hp hc).1, ((h.within hchild hp hc).2 List.not_mem_nil).2⟩
  apart hparent hlt he he' := (h.apart hparent hlt he he').2

theorem laid_ofText {id : DocumentId} {path : String} {text : List Char}
    (h : ofText id path text = .ok doc) : doc.Laid (byteLength text) := by
  have horder := inOrder_ofText h
  obtain ⟨st, hst, rfl⟩ := exists_of_ofText h
  have hread : st.Laying (Reader.withoutMark text) := by
    refine @Reader.loop_induct text _ (fun read st => st.Laying read) ?_ ?_ _ _ [] _ rfl hst ?_
    · exact fun c hst => hst.append [c]
    · intro st next before cs mid found _ hcovers hstep
      exact Reader.laying_step hcovers (Reader.steps_of_step hstep)
    · refine ⟨Reader.ordered_empty id path, ⟨fun he => ?_, fun he => ?_, fun _ hp => ?_, fun _ _ he => ?_⟩⟩
      all_goals simp [element?, Document.empty] at *
  have hlength : byteLength (Reader.withoutMark text) ≤ byteLength text := by
    have := congrArg byteLength (Reader.mark_append_withoutMark text)
    rw [byteLength_append] at this
    omega
  exact (hread.laying.close_all hread.ordered.document.toTree hread.ordered.descending hlength).laid
    horder

end Document

end Markup
end UILayout
