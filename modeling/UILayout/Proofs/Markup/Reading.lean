import Mathlib.Data.List.Basic
import UILayout.Markup.Reader

/-!
# UILayout.Proofs.Markup.Reading

What the reader of documents is given at each step. The pieces that it cuts off stand in the text one
behind the other, and the positions that it counts are those of the pieces in the text it reads.

* `piece_spec`: a piece reaches from its `<` to its `>`.
* `loop_induct`: what every step keeps holds of the whole document.
* `Reader.steps_of_step`: all that a step can do.
* `Document.ofText_induct`: the same for a document that has been read.
* `Document.forall_of_ofText`: what holds of every element that a start tag opens, and is kept when it
  is closed, holds of all elements.
-/

namespace UILayout
namespace Markup

open Text

namespace Reader

/-! ## Cutting -/

theorem cut_eq {ends : List Char → Bool} {before cs a rest : List Char}
    (h : cut ends before cs = some (a, rest)) :
    ∃ mid, a = before.reverse ++ mid ∧ cs = mid ++ '>' :: rest := by
  fun_induction cut ends before cs with
  | case1 => cases h
  | case2 before c cs hc =>
    cases h
    exact ⟨[], by simp, by rw [hc.1]; rfl⟩
  | case3 before c cs _ ih =>
    obtain ⟨mid, rfl, rfl⟩ := ih h
    exact ⟨c :: mid, by simp, rfl⟩

theorem cutTag_eq {quote? : Option Char} {before cs a rest : List Char}
    (h : cutTag quote? before cs = some (a, rest)) :
    ∃ mid, a = before.reverse ++ mid ∧ cs = mid ++ '>' :: rest := by
  fun_induction cutTag quote? before cs with
  | case1 => cases h
  | case3 before cs =>
    cases h
    exact ⟨[], by simp, rfl⟩
  | case2 before c cs q ih | case4 before c cs _ _ ih | case5 before c cs _ _ ih =>
    obtain ⟨mid, rfl, rfl⟩ := ih h
    exact ⟨c :: mid, by simp, rfl⟩

theorem cutBalanced_eq {depth : Nat} {before cs a rest : List Char}
    (h : cutBalanced depth before cs = some (a, rest)) :
    ∃ mid, a = before.reverse ++ mid ∧ cs = mid ++ '>' :: rest := by
  fun_induction cutBalanced depth before cs with
  | case1 => cases h
  | case3 before cs =>
    cases h
    exact ⟨[], by simp, rfl⟩
  | case2 depth before cs ih | case4 before cs _ d ih | case5 depth before c cs _ _ ih =>
    obtain ⟨mid, rfl, rfl⟩ := ih h
    exact ⟨_ :: mid, by simp, rfl⟩

/-- A piece behind a `<` at `start`, cut off in front of what follows it: `mid` is what stands between
the `<` and the `>`. -/
structure Cut.Covers (c : Cut) (start : Nat) (cs mid : List Char) : Prop where
  text : cs = mid ++ '>' :: c.rest
  stop : c.stop = start + byteLength mid + 2
  opening : ∀ {content : List Char} {empty : Bool}, c.piece = .opening content empty →
    mid = content ++ if empty then ['/'] else []

theorem passOver_spec {start : Nat} {fault : Fault} {starts : List Char → Bool} {cs : List Char}
    {found : Option (List Char × List Char)} {c : Cut}
    (hf : ∀ a rest, found = some (a, rest) → cs = a ++ '>' :: rest)
    (h : passOver start fault starts found = .ok c) : ∃ mid, c.Covers start cs mid := by
  unfold passOver at h
  split at h
  · rename_i content rest
    split at h
    · cases h
      exact ⟨content, hf content rest rfl, rfl, nofun⟩
    · cases h
  · cases h

theorem doctype_spec {start : Nat} {cs : List Char} {c : Cut} (h : doctype start cs = .ok c) :
    ∃ mid, c.Covers start cs mid := by
  unfold doctype at h
  split at h
  · rename_i content rest hcut
    obtain ⟨_, rfl, hcs⟩ := cutBalanced_eq hcut
    simp only at h
    split at h
    · split at h
      · cases h
      · cases h
        exact ⟨_, hcs, rfl, nofun⟩
    · cases h
  · cases h

theorem tag_spec {start : Nat} {cs : List Char} {c : Cut} (h : tag start cs = .ok c) :
    ∃ mid, c.Covers start cs mid := by
  unfold tag at h
  split at h
  · cases h
  · rename_i content rest hcut
    obtain ⟨_, rfl, hcs⟩ := cutTag_eq hcut
    refine ⟨content, ?_⟩
    split at h
    · cases h
      exact ⟨hcs, rfl, nofun⟩
    · split at h
      · rename_i hlast
        cases h
        refine ⟨hcs, rfl, ?_⟩
        rintro content empty heq
        cases heq
        exact (List.dropLast_append_getLast? _ hlast).symm
      · cases h
        refine ⟨hcs, rfl, ?_⟩
        rintro content empty heq
        cases heq
        exact (List.append_nil _).symm

theorem piece_spec {start : Nat} {cs : List Char} {c : Cut} (h : piece start cs = .ok c) :
    ∃ mid, c.Covers start cs mid := by
  have hcut : ∀ {ends : List Char → Bool} (a rest : List Char), cut ends [] cs = some (a, rest) →
      cs = a ++ '>' :: rest := by
    intro ends a rest hc
    obtain ⟨mid, rfl, hcs⟩ := cut_eq hc
    exact hcs
  unfold piece at h
  split at h
  · cases h
  · split at h
    · exact passOver_spec hcut h
    · exact passOver_spec hcut h
    · exact doctype_spec h
    · exact doctype_spec h
    · cases h
  · exact passOver_spec hcut h
  · exact tag_spec h

/-! ## Reading on -/

/-- `P` holds of the whole text when it holds of what has been read before and is kept by every
character that is passed over and by every step, at its place in the text that is read. -/
theorem loop_induct {text whole : List Char} {P : List Char → State → Prop}
    (skip : ∀ {st : State} {before : List Char} (c : Char), P before st → P (before ++ [c]) st)
    (step : ∀ {st next : State} {before cs mid : List Char} {found : Cut},
      whole = before ++ '<' :: cs → found.Covers (byteLength before) cs mid →
      Reader.step text st found.piece (byteLength before) found.stop = .ok next → P before st →
      P (before ++ '<' :: mid ++ ['>']) next)
    {st last : State} {before cs : List Char} (hwhole : whole = before ++ cs)
    (h : loop text st (byteLength before) cs = .ok last) (hst : P before st) : P whole last := by
  generalize hposition : byteLength before = position at h
  fun_induction loop text st position cs generalizing before with
  | case1 =>
    obtain rfl := Except.ok.inj h
    rwa [hwhole, List.append_nil]
  | case2 => cases h
  | case3 => cases h
  | case4 st position rest found hfound next hnext ih =>
    subst hposition
    obtain ⟨mid, hmid⟩ := piece_spec hfound
    refine @ih (before ++ '<' :: mid ++ ['>']) ?_ (step hwhole hmid hnext hst) ?_ h
    · rw [hwhole, hmid.text]
      simp
    · have hopen : '<'.utf8Size = 1 := rfl
      have hclose : '>'.utf8Size = 1 := rfl
      rw [hmid.stop]
      simp [hopen, hclose]
      omega
  | case5 st position c rest _ ih =>
    refine @ih (before ++ [c]) ?_ (skip c hst) ?_ h
    · simp [hwhole]
    · simp [hposition]

end Reader

/-! ## Documents -/

section

variable {id : DocumentId} {path : String} {text : List Char} {doc : Document}

@[simp] theorem Document.id_push (doc : Document) (parent? : Option ElementId) (e : Element) :
    (doc.push parent? e).1.id = doc.id := by
  unfold push
  split <;> rfl

@[simp] theorem Document.path_push (doc : Document) (parent? : Option ElementId) (e : Element) :
    (doc.push parent? e).1.path = doc.path := by
  unfold push
  split <;> rfl

theorem Document.snd_push (doc : Document) (parent? : Option ElementId) (e : Element) :
    (doc.push parent? e).2 = doc.size := by
  unfold push
  split <;> rfl

theorem Document.element?_push (doc : Document) (parent? : Option ElementId) (e : Element)
    (j : ElementId) : (doc.push parent? e).1.element? j =
      (if j = doc.size then some { e with parent? := parent? } else doc.element? j).map fun e =>
        if parent? = some j then { e with children := e.children ++ [doc.size] } else e := by
  have hpushed : (doc.elements.push { e with parent? := parent? })[j]? =
      if j = doc.size then some { e with parent? := parent? } else doc.element? j :=
    Array.getElem?_push
  rw [← hpushed]
  cases parent? with
  | none => simp [push, element?]
  | some parent =>
    simp only [push, element?, Array.getElem?_modify, Option.some_inj]
    split <;> simp [size]

/-- The elements after one was pushed are those before and the new one, in their places in the tree. -/
theorem Document.exists_of_element?_push {doc : Document} {parent? : Option ElementId} {e e' : Element}
    {j : ElementId} (h : (doc.push parent? e).1.element? j = some e') :
    ∃ old, (doc.element? j = some old ∨ j = doc.size ∧ old = e) ∧
      ∃ children parent?', e' = { old with children := children, parent? := parent?' } := by
  have hput : ∀ old : Element, ∃ children,
      (if parent? = some j then { old with children := old.children ++ [doc.size] } else old) =
        { old with children := children } := by
    intro old
    split <;> exact ⟨_, rfl⟩
  rw [element?_push] at h
  obtain ⟨old, hold, rfl⟩ := Option.map_eq_some_iff.1 h
  obtain ⟨children, hchildren⟩ := hput old
  rw [hchildren]
  split at hold
  · rename_i hj
    cases hold
    exact ⟨e, .inr ⟨hj, rfl⟩, children, parent?, rfl⟩
  · exact ⟨old, .inl hold, children, old.parent?, rfl⟩

theorem Document.element?_modify (doc : Document) (id j : ElementId) (f : Element → Element) :
    (doc.modify id f).element? j = (doc.element? j).map fun e => if id = j then f e else e := by
  simp only [element?, modify, Array.getElem?_modify]
  split <;> simp

theorem Document.lt_size_of_element? {doc : Document} {j : ElementId} {e : Element}
    (h : doc.element? j = some e) : j < doc.size :=
  (Array.getElem?_eq_some_iff.1 h).1

/-- What a step does to the document: it adds an element, closes one or passes something over. -/
inductive Reader.Adds (text : List Char) (start : Nat) (found : Reader.Cut) :
    Document → Document → Prop where
  | opening {doc : Document} {content : List Char} {empty : Bool} {e : Element}
      (hpiece : found.piece = .opening content empty)
      (he : StartTag.element text content start found.stop = .ok e) (parent? : Option ElementId) :
      Adds text start found doc
        (doc.push parent? (if empty then { e with stop := found.stop, closed := true } else e)).1
  | closing {doc : Document} (element : ElementId) :
      Adds text start found doc
        (doc.modify element fun e => { e with stop := found.stop, closed := true })
  | passed {doc : Document} : Adds text start found doc doc

/-- All that a step can do. -/
inductive Reader.Steps (text : List Char) (start : Nat) (found : Reader.Cut) (st : Reader.State) :
    Reader.State → Prop where
  | empty {content : List Char} {e : Element} (hpiece : found.piece = .opening content true)
      (he : StartTag.element text content start found.stop = .ok e) :
      Steps text start found st
        { st with document := (st.document.push (st.openElements.head?.map (·.1))
          { e with stop := found.stop, closed := true }).1 }
  | opening {content name : List Char} {e : Element}
      (hpiece : found.piece = .opening content false)
      (he : StartTag.element text content start found.stop = .ok e) :
      Steps text start found st
        ⟨(st.document.push (st.openElements.head?.map (·.1)) e).1,
          (st.document.size, name) :: st.openElements⟩
  | closing {element : ElementId} {name : List Char} {outer : List (ElementId × List Char)}
      (hopen : st.openElements = (element, name) :: outer) :
      Steps text start found st
        ⟨st.document.modify element fun e => { e with stop := found.stop, closed := true }, outer⟩
  | passed : Steps text start found st st

theorem Reader.steps_of_step {st next : State} {start : Nat} {found : Cut}
    (h : Reader.step text st found.piece start found.stop = .ok next) :
    Steps text start found st next := by
  cases hpiece : found.piece with
  | opening content empty =>
    rw [hpiece, Reader.step, openElement] at h
    split at h
    · cases h
    · rename_i e he
      cases empty with
      | true =>
        cases h
        exact .empty hpiece he
      | false =>
        cases h
        rw [Document.snd_push]
        exact .opening hpiece he
  | closing content =>
    simp only [hpiece, Reader.step, closeElement] at h
    split at h
    · cases h
    · rename_i element expected outer hopen
      split at h
      · cases h
        exact .closing hopen
      · cases h
  | passed =>
    rw [hpiece] at h
    cases h
    exact .passed

theorem Reader.Steps.adds {st next : State} {start : Nat} {found : Cut}
    (h : Steps text start found st next) : Adds text start found st.document next.document := by
  cases h with
  | empty hpiece he => exact @Adds.opening text start found st.document _ _ _ hpiece he _
  | opening hpiece he => exact @Adds.opening text start found st.document _ _ _ hpiece he _
  | closing => exact .closing _
  | passed => exact .passed

/-- A document that has been read is what the last state holds, with the open elements reaching to the
end of the text. -/
theorem Document.exists_of_ofText (h : Document.ofText id path text = .ok doc) :
    ∃ st, Reader.loop text ⟨.empty id path, []⟩ 0 (Reader.withoutMark text) = .ok st ∧
      doc = st.openElements.foldl
        (fun doc element => doc.modify element.1 fun e => { e with stop := byteLength text })
        st.document := by
  unfold Document.ofText at h
  split at h
  · cases h
  · rename_i st hst
    exact ⟨st, hst, (Except.ok.inj h).symm⟩

/-- What holds of a document without elements, is kept by every step and does not depend on where the
open elements end holds of a document that has been read. -/
theorem Document.ofText_induct {P : Document → Prop} (h : Document.ofText id path text = .ok doc)
    (start : P (.empty id path))
    (step : ∀ {doc doc' : Document} {before cs mid : List Char} {found : Reader.Cut},
      Reader.withoutMark text = before ++ '<' :: cs → found.Covers (byteLength before) cs mid →
      Reader.Adds text (byteLength before) found doc doc' → P doc → P doc')
    (close : ∀ {doc : Document} {element : ElementId}, P doc →
      P (doc.modify element fun e => { e with stop := byteLength text })) : P doc := by
  obtain ⟨st, hst, rfl⟩ := Document.exists_of_ofText h
  have hread : P st.document := by
    refine @Reader.loop_induct text _ (fun _ st => P st.document) ?_ ?_ _ _ [] _ rfl hst start
    · intro st before c hst
      exact hst
    · intro st next before cs mid found htext hcovers hstep
      exact step htext hcovers (Reader.steps_of_step hstep).adds
  clear hst
  generalize st.document = doc at hread
  induction st.openElements generalizing doc with
  | nil => exact hread
  | cons element rest ih => exact ih _ (close hread)

/-- A property of elements that is about their start tags alone holds of all elements when it holds of
each that a start tag opens. -/
theorem Document.forall_of_ofText {P : Element → Prop} (h : Document.ofText id path text = .ok doc)
    (congr : ∀ e e' : Element, e'.tag = e.tag → e'.start = e.start → e'.tagStop = e.tagStop →
      e'.attributes = e.attributes → P e → P e')
    (opened : ∀ {before content closing after : List Char} {e : Element},
      Reader.withoutMark text = before ++ ('<' :: content ++ closing ++ after) →
      closing = ['>'] ∨ closing = ['/', '>'] →
      StartTag.element text content (byteLength before)
        (byteLength before + byteLength ('<' :: content ++ closing)) = .ok e → P e)
    {element : ElementId} {e : Element} (he : doc.element? element = some e) : P e := by
  have hmodify : ∀ {doc : Document} (element : ElementId) (stop : Nat) (closed : Element → Bool),
      (∀ j e, doc.element? j = some e → P e) → ∀ j e,
        (doc.modify element fun e => { e with stop := stop, closed := closed e }).element? j = some e →
        P e := by
    intro doc element stop closed hdoc j e he
    rw [element?_modify] at he
    obtain ⟨old, hold, rfl⟩ := Option.map_eq_some_iff.1 he
    split
    · exact congr old _ rfl rfl rfl rfl (hdoc j old hold)
    · exact hdoc j old hold
  refine ofText_induct (P := fun doc => ∀ j e, doc.element? j = some e → P e) h ?_ ?_ ?_ element e he
  · intro j e he
    simp [element?, empty] at he
  · intro doc doc' before cs mid found htext hcovers hadds hdoc
    cases hadds with
    | @opening content empty e hpiece he parent? =>
      have hmid := hcovers.opening hpiece
      have hstop : found.stop = byteLength before +
          byteLength ('<' :: content ++ ((if empty then ['/'] else []) ++ ['>'])) := by
        have hopen : '<'.utf8Size = 1 := rfl
        have hclose : '>'.utf8Size = 1 := rfl
        rw [hcovers.stop, hmid]
        simp [hopen, hclose]
        omega
      have hsplit : Reader.withoutMark text = before ++
          ('<' :: content ++ ((if empty then ['/'] else []) ++ ['>']) ++ found.rest) := by
        rw [htext, hcovers.text, hmid]
        simp
      rw [hstop] at he
      have hnew := opened hsplit (by cases empty <;> simp) he
      intro j e' he'
      obtain ⟨old, hold | ⟨-, rfl⟩, children, parent?', rfl⟩ := exists_of_element?_push he'
      · exact congr old _ rfl rfl rfl rfl (hdoc j old hold)
      · refine congr e _ ?_ ?_ ?_ ?_ hnew <;> (dsimp only; split <;> rfl)
    | closing element => exact hmodify element found.stop (fun _ => true) hdoc
    | passed => exact hdoc
  · intro doc element hdoc
    exact hmodify element (byteLength text) (·.closed) hdoc

theorem Document.id_path_ofText (h : Document.ofText id path text = .ok doc) :
    doc.id = id ∧ doc.path = path := by
  refine Document.ofText_induct (P := fun doc => doc.id = id ∧ doc.path = path) h ⟨rfl, rfl⟩ ?_ ?_
  · intro doc doc' before cs mid found _ _ hadds hdoc
    cases hadds with
    | opening _ _ parent? =>
      rw [id_push, path_push]
      exact hdoc
    | closing => exact hdoc
    | passed => exact hdoc
  · intro doc element hdoc
    exact hdoc

end

end Markup
end UILayout
