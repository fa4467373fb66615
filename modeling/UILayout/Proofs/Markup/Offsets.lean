import UILayout.Proofs.Markup.Places

/-!
# UILayout.Proofs.Markup.Offsets

Where the elements of a document stand in its text. The reader counts its positions in the text that
it reads, which is the given text without a byte order mark, so that all offsets of a document lie
before the places that they mean by the length of the mark.

* `Reader.pointing_loop`: at every point of the reading, the elements stand at their offsets in
  what has been read.
* `Document.pointsInto`: the elements of a document stand in its text at their offsets, moved by the
  length of the mark.
-/

namespace UILayout
namespace Markup

open Text

/-! ## The byte order mark -/

namespace Reader

/-- The byte order mark of a text, if it starts with one. -/
def mark : List Char → List Char
  | [] => []
  | c :: _ => if c.toNat = 0xfeff then [c] else []

theorem mark_append_withoutMark (text : List Char) : mark text ++ withoutMark text = text := by
  cases text with
  | nil => rfl
  | cons c cs =>
    rw [mark, withoutMark]
    split <;> rfl

/-- A mark takes three bytes. -/
theorem byteLength_mark (text : List Char) : byteLength (mark text) = 0 ∨
    byteLength (mark text) = 3 := by
  cases text with
  | nil => exact .inl rfl
  | cons c cs =>
    rw [mark]
    split
    · rename_i hc
      have hchar : c = Char.ofNat 0xfeff := by rw [← hc, Char.ofNat_toNat]
      exact .inr (hchar ▸ rfl)
    · exact .inl rfl

end Reader

/-! ## Elements that stand at their offsets -/

/-- The start tag of an element stands in a text at its offsets, moved by `shift` bytes, and when the
element is closed, what stands from its start to its stop ends with a `>`. -/
structure Element.PointsInto (e : Element) (text : List Char) (shift : Nat) : Prop where
  tag : ∃ inner, slice? text (e.tagSpan.start + shift) (e.tagSpan.stop + shift) =
    some ('<' :: e.tag.toList ++ inner ++ ['>'])
  closed : e.closed → ∃ inner, slice? text (e.span.start + shift) (e.span.stop + shift) =
    some (inner ++ ['>'])

namespace Element.PointsInto

variable {e : Element} {text : List Char} {shift : Nat}

/-- Only the tag, the offsets and the end of an element count. -/
theorem congr (h : e.PointsInto text shift) {e' : Element} (htag : e'.tag = e.tag)
    (hstart : e'.start = e.start) (htagStop : e'.tagStop = e.tagStop)
    (hclosed : e'.closed → e.closed ∧ e'.stop = e.stop) : e'.PointsInto text shift := by
  refine ⟨?_, fun he' => ?_⟩
  · obtain ⟨inner, hinner⟩ := h.tag
    refine ⟨inner, ?_⟩
    rw [tagSpan, hstart, htagStop, htag]
    exact hinner
  · obtain ⟨he, hstop⟩ := hclosed he'
    obtain ⟨inner, hinner⟩ := h.closed he
    refine ⟨inner, ?_⟩
    rw [span, hstart, hstop]
    exact hinner

theorem append_right (h : e.PointsInto text shift) (more : List Char) :
    e.PointsInto (text ++ more) shift := by
  refine ⟨?_, fun he => ?_⟩
  · obtain ⟨inner, hinner⟩ := h.tag
    exact ⟨inner, slice?_append_right hinner more⟩
  · obtain ⟨inner, hinner⟩ := h.closed he
    exact ⟨inner, slice?_append_right hinner more⟩

theorem append_left (h : e.PointsInto text shift) (front : List Char) :
    e.PointsInto (front ++ text) (shift + byteLength front) := by
  refine ⟨?_, fun he => ?_⟩
  · obtain ⟨inner, hinner⟩ := h.tag
    refine ⟨inner, ?_⟩
    rw [← Nat.add_assoc, ← Nat.add_assoc]
    exact slice?_append_left hinner front
  · obtain ⟨inner, hinner⟩ := h.closed he
    refine ⟨inner, ?_⟩
    rw [← Nat.add_assoc, ← Nat.add_assoc]
    exact slice?_append_left hinner front

/-- An element may be closed at the end of what has been read, behind a `>`. -/
theorem close (h : e.PointsInto (text ++ ['>']) 0) {stop : Nat}
    (hstop : stop = byteLength (text ++ ['>'])) :
    { e with stop := stop, closed := true }.PointsInto (text ++ ['>']) 0 := by
  refine ⟨h.tag, fun _ => ?_⟩
  obtain ⟨inner, hinner⟩ := h.tag
  have hle : e.start ≤ stop := (le_of_slice? hinner).1.trans (hstop ▸ (le_of_slice? hinner).2)
  obtain ⟨before, after, htext, hstart, -⟩ := slice?_eq_some_iff.1 hinner
  obtain ⟨whole, last, hwhole⟩ : ∃ whole last,
      '<' :: e.tag.toList ++ inner ++ ['>'] ++ after = whole ++ [last] :=
    (List.eq_nil_or_concat' _).resolve_left (by simp)
  rw [hwhole, ← List.append_assoc] at htext
  obtain ⟨htext', hlast⟩ := List.append_inj' htext rfl
  cases hlast
  have hspan : (Span.cover e.start stop).stop = stop := Nat.max_eq_right hle
  refine ⟨whole, slice?_eq_some_iff.2 ⟨before, [], by simp [htext'], hstart, ?_⟩⟩
  change (Span.cover e.start stop).stop + 0 = _
  rw [hspan, hstop, htext']
  simp

end Element.PointsInto

theorem exists_foldl_setAttribute (e : Element) (attributes : List Attribute) :
    ∃ all, attributes.foldl Element.setAttribute e = { e with attributes := all } := by
  induction attributes generalizing e with
  | nil => exact ⟨e.attributes, rfl⟩
  | cons a attributes ih => exact ih (e.setAttribute a)

/-- What a start tag gives its element besides attributes. -/
theorem StartTag.element_spec {text content : List Char} {start stop : Nat} {e : Element}
    (h : StartTag.element text content start stop = .ok e) :
    e.tag = String.ofList (content.takeWhile fun c => !isTagBlank c) ∧ e.start = start ∧
      e.tagStop = stop ∧ e.closed = false ∧ e.children = [] := by
  unfold StartTag.element at h
  dsimp only at h
  generalize attributesFrom _ _ _ _ _ _ _ = read at h
  cases read with
  | error fault => cases h
  | ok attributes =>
    obtain ⟨all, hall⟩ := exists_foldl_setAttribute _ attributes
    obtain rfl := (Except.ok.inj h).symm.trans hall
    exact ⟨rfl, rfl, rfl, rfl, rfl⟩

/-! ## Reading -/

namespace Reader

/-- A state between two pieces: its elements stand at their offsets in what has been read, and the open
ones are different elements that are not closed. -/
structure State.Pointing (read : List Char) (st : State) : Prop where
  points : ∀ id e, st.document.element? id = some e → e.PointsInto read 0
  unclosed : ∀ id ∈ st.openElements.map (·.1), ∃ e, st.document.element? id = some e ∧
    e.closed = false
  nodup : (st.openElements.map (·.1)).Nodup

variable {text : List Char} {st next : State} {read cs mid : List Char} {found : Cut}

theorem State.Pointing.append (h : st.Pointing read) (more : List Char) :
    st.Pointing (read ++ more) :=
  ⟨fun id e he => (h.points id e he).append_right more, h.unclosed, h.nodup⟩

theorem Cut.Covers.stop_eq (h : found.Covers (byteLength read) cs mid) :
    found.stop = byteLength (read ++ '<' :: mid ++ ['>']) := by
  have hopen : '<'.utf8Size = 1 := rfl
  have hclose : '>'.utf8Size = 1 := rfl
  rw [h.stop]
  simp [hopen, hclose]
  omega

/-- A new element stands where the piece stands that opens it. -/
theorem Cut.Covers.points {content : List Char} {empty : Bool} {e : Element}
    (h : found.Covers (byteLength read) cs mid) (hpiece : found.piece = .opening content empty)
    (he : StartTag.element text content (byteLength read) found.stop = .ok e) :
    e.PointsInto (read ++ '<' :: mid ++ ['>']) 0 := by
  obtain ⟨htag, hstart, hstop, hclosed, -⟩ := StartTag.element_spec he
  refine ⟨?_, fun hc => absurd hc (by simp [hclosed])⟩
  have hmid := h.opening hpiece
  have hcut : (content.takeWhile fun c => !isTagBlank c) ++
      (content.dropWhile fun c => !isTagBlank c) = content := List.takeWhile_append_dropWhile
  generalize content.takeWhile (fun c => !isTagBlank c) = name at htag hcut
  generalize content.dropWhile (fun c => !isTagBlank c) = rest at hcut
  have hle : byteLength read ≤ found.stop := by
    rw [h.stop]
    omega
  refine ⟨rest ++ if empty then ['/'] else [], slice?_eq_some_iff.2 ⟨read, [], ?_, ?_, ?_⟩⟩
  · simp [htag, hmid, ← hcut]
  · simp [Element.tagSpan, Span.cover, hstart]
  · rw [Element.tagSpan, hstart, hstop, Span.cover, Nat.max_eq_right hle, h.stop_eq]
    simp [htag, hmid, ← hcut]

/-- The document of a state after an element was pushed. -/
theorem State.Pointing.push (h : st.Pointing read) {e : Element} (he : e.PointsInto read 0)
    (parent? : Option ElementId) (id : ElementId) (e' : Element)
    (he' : (st.document.push parent? e).1.element? id = some e') : e'.PointsInto read 0 := by
  obtain ⟨old, hold | ⟨-, rfl⟩, children, parent?', rfl⟩ :=
    Document.exists_of_element?_push he'
  · exact (h.points id old hold).congr rfl rfl rfl fun hc => ⟨hc, rfl⟩
  · exact he.congr rfl rfl rfl fun hc => ⟨hc, rfl⟩

/-- An element that is pushed leaves the open ones open. -/
theorem State.Pointing.unclosed_push (h : st.Pointing read) (parent? : Option ElementId) (e : Element) :
    ∀ id ∈ st.openElements.map (·.1), ∃ e',
      (st.document.push parent? e).1.element? id = some e' ∧ e'.closed = false := by
  intro id hid
  obtain ⟨e', he', hclosed⟩ := h.unclosed id hid
  have hne : id ≠ st.document.size := (Document.lt_size_of_element? he').ne
  refine ⟨_, by rw [Document.element?_push, if_neg hne, he']; rfl, ?_⟩
  split <;> exact hclosed

/-- An element that stays open is a new one. -/
theorem State.Pointing.opening (h : st.Pointing read) {e : Element} (he : e.PointsInto read 0)
    (hclosed : e.closed = false) (parent? : Option ElementId) (name : List Char) :
    State.Pointing read
      ⟨(st.document.push parent? e).1, (st.document.size, name) :: st.openElements⟩ := by
  refine ⟨h.push he _, fun id hid => ?_, List.nodup_cons.2 ⟨fun hid => ?_, h.nodup⟩⟩
  · rcases List.mem_cons.1 hid with rfl | hid
    · refine ⟨_, by rw [Document.element?_push, if_pos rfl]; rfl, ?_⟩
      split <;> exact hclosed
    · exact h.unclosed_push _ _ id hid
  · obtain ⟨e', he', -⟩ := h.unclosed _ hid
    exact absurd (Document.lt_size_of_element? he') (Nat.lt_irrefl _)

/-- Only the innermost open element is closed, since the open ones are different. -/
theorem State.Pointing.closing (h : st.Pointing (read ++ ['>'])) {element : ElementId}
    {name : List Char} {outer : List (ElementId × List Char)} {stop : Nat}
    (hopen : st.openElements = (element, name) :: outer)
    (hstop : stop = byteLength (read ++ ['>'])) :
    State.Pointing (read ++ ['>'])
      ⟨st.document.modify element fun e => { e with stop := stop, closed := true }, outer⟩ := by
  have hnodup := h.nodup
  rw [hopen, List.map_cons, List.nodup_cons] at hnodup
  refine ⟨fun j e' he' => ?_, fun j hj => ?_, hnodup.2⟩
  · rw [Document.element?_modify] at he'
    obtain ⟨e, he, rfl⟩ := Option.map_eq_some_iff.1 he'
    split
    · exact (h.points j e he).close hstop
    · exact h.points j e he
  · obtain ⟨e, he, hclosed⟩ := h.unclosed j (by simp [hopen, hj])
    have hne : element ≠ j := fun h => hnodup.1 (h ▸ hj)
    exact ⟨e, by rw [Document.element?_modify, he, Option.map_some, if_neg hne], hclosed⟩

theorem pointing_step (hcovers : found.Covers (byteLength read) cs mid)
    (h : Steps text (byteLength read) found st next) (hst : st.Pointing read) :
    next.Pointing (read ++ '<' :: mid ++ ['>']) := by
  have hread : st.Pointing (read ++ '<' :: mid ++ ['>']) := (hst.append _).append _
  cases h with
  | empty hpiece he =>
    have hpoints := (hcovers.points hpiece he).close hcovers.stop_eq
    exact ⟨hread.push hpoints _, hread.unclosed_push _ _, hread.nodup⟩
  | opening hpiece he =>
    obtain ⟨-, -, -, hclosed, -⟩ := StartTag.element_spec he
    exact hread.opening (hcovers.points hpiece he) hclosed _ _
  | closing hopen => exact hread.closing hopen hcovers.stop_eq
  | passed => exact hread

/-- All elements stand at their offsets in the text that has been read. -/
theorem pointing_loop {whole : List Char} {id : DocumentId} {path : String} {last : State}
    (h : loop text ⟨.empty id path, []⟩ 0 whole = .ok last) : last.Pointing whole := by
  refine @loop_induct text whole (fun read st => st.Pointing read) ?_ ?_ _ _ [] _ rfl h ?_
  · intro st read c hst
    exact hst.append [c]
  · intro st next read cs mid found _ hcovers hstep hst
    exact pointing_step hcovers (steps_of_step hstep) hst
  · exact ⟨fun id e he => by simp [Document.empty, Document.element?] at he, by simp, by simp⟩

end Reader

/-! ## Documents -/

namespace Document

/-- The elements that stay open reach to the end of the text, and nothing else about them changes. -/
theorem element?_foldl_stop {doc : Document} {opened : List (ElementId × List Char)} {stop : Nat}
    {id : ElementId} {e' : Element}
    (h : (opened.foldl (fun doc p => doc.modify p.1 fun e => { e with stop := stop }) doc).element? id =
      some e') :
    ∃ e, doc.element? id = some e ∧
      (e' = e ∨ id ∈ opened.map (·.1) ∧ e' = { e with stop := stop }) := by
  induction opened generalizing doc with
  | nil => exact ⟨e', h, .inl rfl⟩
  | cons p opened ih =>
    obtain ⟨mid, hmid, hlast⟩ := ih h
    rw [element?_modify] at hmid
    obtain ⟨e, he, rfl⟩ := Option.map_eq_some_iff.1 hmid
    refine ⟨e, he, ?_⟩
    split at hlast
    · rename_i hp
      rcases hlast with rfl | ⟨hid, rfl⟩
      · exact .inr ⟨by simp [hp], rfl⟩
      · exact .inr ⟨by simp [hp], rfl⟩
    · rcases hlast with rfl | ⟨hid, rfl⟩
      · exact .inl rfl
      · exact .inr ⟨by simp [hid], rfl⟩

/-- The elements of a document stand in its text at their offsets, moved by the length of the byte
order mark that the text starts with. -/
theorem pointsInto {id : DocumentId} {path : String} {text : List Char} {doc : Document}
    (h : ofText id path text = .ok doc) {element : ElementId} {e : Element}
    (he : doc.element? element = some e) :
    e.PointsInto text (byteLength (Reader.mark text)) := by
  obtain ⟨st, hst, rfl⟩ := exists_of_ofText h
  have hpointing := Reader.pointing_loop hst
  obtain ⟨old, hold, hlast⟩ := element?_foldl_stop he
  have hread : e.PointsInto (Reader.withoutMark text) 0 := by
    rcases hlast with rfl | ⟨hopen, rfl⟩
    · exact hpointing.points element e hold
    · obtain ⟨e', he', hclosed⟩ := hpointing.unclosed element hopen
      rw [hold] at he'
      cases he'
      refine (hpointing.points element old hold).congr rfl rfl rfl fun hc => ?_
      exact absurd hc (by simp [hclosed])
  have hmoved := hread.append_left (Reader.mark text)
  rwa [Reader.mark_append_withoutMark, Nat.zero_add] at hmoved

theorem pointsInto_marked : ∃ doc e, ofText 0 "" "\uFEFF<Desc/>".toList = .ok doc ∧
    doc.element? 0 = some e ∧ e.PointsInto "\uFEFF<Desc/>".toList 3 := by
  have hsome : (read? "\uFEFF<Desc/>".toList 0).isSome := by decide +kernel
  obtain ⟨e, he⟩ := Option.isSome_iff_exists.1 hsome
  obtain ⟨doc, hread, helement⟩ := exists_of_read? he
  exact ⟨doc, e, hread, helement, pointsInto hread helement⟩

/-- Behind a byte order mark, the start tag of the root does not stand at its offsets. -/
theorem displaced_behind_mark : ∃ doc e, ofText 0 "" "\uFEFF<Desc/>".toList = .ok doc ∧
    doc.element? 0 = some e ∧ ¬ e.PointsInto "\uFEFF<Desc/>".toList 0 := by
  have htag : (read? "\uFEFF<Desc/>".toList 0).map (fun e =>
      slice? "\uFEFF<Desc/>".toList (e.tagSpan.start + 0) (e.tagSpan.stop + 0)) =
        some (some "\uFEFF<Des".toList) := by decide +kernel
  obtain ⟨e, he, hslice⟩ := Option.map_eq_some_iff.1 htag
  obtain ⟨doc, hread, helement⟩ := exists_of_read? he
  refine ⟨doc, e, hread, helement, fun hpoints => ?_⟩
  obtain ⟨inner, hinner⟩ := hpoints.tag
  rw [hslice] at hinner
  exact absurd (congrArg (Option.bind · List.head?) hinner) (by simp)

end Document

end Markup
end UILayout
