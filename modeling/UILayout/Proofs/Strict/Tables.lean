import UILayout.Hierarchy.Select
import UILayout.Proofs.Markup.Inside
import UILayout.Proofs.Schema.Fits
import UILayout.Proofs.Selector.Spans
import UILayout.Check.Structure

/-!
# UILayout.Proofs.Strict.Tables

The functions that check a document never fail: where an entry of a table is missing, a cut of a text
falls inside a character, or a child is not behind its parent, they go on with something else. Their
strict forms do not. A strict function is `none` as soon as an entry is missing that its number says is
there, a text cannot be cut at an offset, or a span would end before it starts, and it has no other
way to go on.

This module has the strict forms for texts, schemas and documents. Each of them gives what the function
gives whose name it bears, when nothing that is referred to is missing.

* `mapM_eq_some`: a list of strict answers.
* `sourceSpan_eq`, `fragmentTexts_eq`, `reference_eq`: spans and cuts.
* `checkSimple_eq`: following the numbers in a schema.
* `boundElements_eq`: walking down a document.
-/

namespace UILayout
namespace Strict

open Text Schema Markup Selector Namespace

/-! ## Lists -/

section

variable {α β : Type} {l : List α}

theorem mapM_eq_some {f : α → Option β} {g : α → β} (h : ∀ a ∈ l, f a = some (g a)) :
    l.mapM f = some (l.map g) := by
  induction l with
  | nil => rfl
  | cons a rest ih =>
    rw [List.mapM_cons, h a List.mem_cons_self, ih fun b hb => h b (List.mem_cons_of_mem a hb)]
    rfl

theorem mapM_eq_filterMap {f : α → Option β} (h : ∀ a ∈ l, ∃ b, f a = some b) :
    l.mapM f = some (l.filterMap f) := by
  induction l with
  | nil => rfl
  | cons a rest ih =>
    obtain ⟨b, hb⟩ := h a List.mem_cons_self
    rw [List.mapM_cons, hb, ih fun c hc => h c (List.mem_cons_of_mem a hc), List.filterMap_cons, hb]
    rfl

theorem anyM_eq_some {f : α → Option Bool} {p : α → Bool} (h : ∀ a ∈ l, f a = some (p a)) :
    l.anyM f = some (l.any p) := by
  induction l with
  | nil => rfl
  | cons a rest ih =>
    rw [List.anyM, h a List.mem_cons_self, ih fun b hb => h b (List.mem_cons_of_mem a hb), List.any_cons]
    cases p a <;> rfl

theorem allM_eq_some {f : α → Option Bool} {p : α → Bool} (h : ∀ a ∈ l, f a = some (p a)) :
    l.allM f = some (l.all p) := by
  induction l with
  | nil => rfl
  | cons a rest ih =>
    rw [List.allM, h a List.mem_cons_self, ih fun b hb => h b (List.mem_cons_of_mem a hb), List.all_cons]
    cases p a <;> rfl

theorem findM?_eq_some {f : α → Option Bool} {p : α → Bool} (h : ∀ a ∈ l, f a = some (p a)) :
    l.findM? f = some (l.find? p) := by
  induction l with
  | nil => rfl
  | cons a rest ih =>
    rw [List.findM?, h a List.mem_cons_self, ih fun b hb => h b (List.mem_cons_of_mem a hb),
      List.find?_cons]
    cases p a <;> rfl

end

/-! ## Spans and cuts -/

def span (start stop : Nat) : Option Span := if start ≤ stop then some ⟨start, stop⟩ else none

/-- Offsets are not subtracted from smaller ones. -/
def sourceOffset (a : Attribute) (position : Nat) : Option Nat :=
  let edge := Attribute.lastEdge (·.1) position a.escapes
  if edge.1 ≤ position then some (a.contentStart + edge.2 + (position - edge.1)) else none

def sourceSpan (a : Attribute) (s : Span) : Option Span := do
  let start ← sourceOffset a s.start
  let stop ← sourceOffset a s.stop
  span start stop

def path (text : List Char) : Option Path := do
  let p := Path.ofText text
  let _ ← p.spans.mapM fun s => span s.start s.stop
  return p

def bind (text : List Char) : Option Bind := do
  let b := Bind.ofText text
  let _ ← b.spans.mapM fun s => span s.start s.stop
  return b

def fragmentTexts (p : Path) (text : List Char) : Option (List String) :=
  p.fragments.mapM fun f => (slice? text f.span.start f.span.stop).map String.ofList

/-- The name behind the first byte of a value. -/
def nameIn (value : String) : Option String :=
  (slice? value.toList 1 value.utf8ByteSize).map String.ofList

def reference (value : String) : Option (Option Reference) :=
  match ValueForm.ofText value.toList with
  | .constant => (nameIn value).map fun name => some (.exact name)
  | .racialConstant => (nameIn value).map fun name => some (.racial name)
  | _ => some none

theorem span_eq {s : Span} (h : s.start ≤ s.stop) : span s.start s.stop = some s := if_pos h

theorem sourceOffset_eq (a : Attribute) (position : Nat) :
    sourceOffset a position = some (a.sourceOffset position) :=
  if_pos (Attribute.le_lastEdge position a.escapes)

theorem sourceSpan_eq {a : Attribute} (ha : a.Ordered) {s : Span} (hs : s.start ≤ s.stop) :
    sourceSpan a s = some (a.sourceSpan s) := by
  rw [sourceSpan, sourceOffset_eq, sourceOffset_eq]
  exact if_pos (ha _ _ hs)

theorem mapM_span {spans : List Span} (h : ∀ s ∈ spans, s.start ≤ s.stop) :
    (spans.mapM fun s => span s.start s.stop) = some (spans.map id) :=
  mapM_eq_some fun s hs => span_eq (h s hs)

theorem path_eq (text : List Char) : path text = some (Path.ofText text) := by
  rw [path, mapM_span fun s hs => ((Path.inside_ofText text).spans s hs).ordered]
  rfl

theorem bind_eq (text : List Char) : bind text = some (Bind.ofText text) := by
  rw [bind, mapM_span fun s hs => (Bind.inside_ofText text s hs).ordered]
  rfl

theorem fragmentTexts_eq (text : List Char) :
    fragmentTexts (Path.ofText text) text = some ((Path.ofText text).fragmentTexts text) := by
  refine mapM_eq_some fun f hf => ?_
  have hspan := ((Path.inside_ofText text).fragments f hf).span
  obtain ⟨part, hpart⟩ := exists_slice? hspan.start hspan.stop hspan.ordered
  rw [hpart]
  rfl

theorem nameIn_eq {value : String} {c : Char} {name : List Char} (h : value.toList = c :: name)
    (hc : c.utf8Size = 1) : nameIn value = some (String.ofList (value.toList.drop 1)) := by
  have hcut : slice? value.toList 1 value.utf8ByteSize = some name := by
    refine slice?_eq_some_iff.2 ⟨[c], [], by simp [h], ?_, ?_⟩
    · rw [byteLength_cons, hc, byteLength_nil]
    · rw [← byteLength_toList, h, byteLength_cons]
      rfl
  rw [nameIn, hcut, h]
  rfl

/-- The mark of a constant is one byte long. -/
theorem reference_eq (value : String) : reference value = some (Reference.ofValue? value) := by
  have hmarked : ∀ form, ValueForm.ofText value.toList = form →
      form = .constant ∨ form = .racialConstant →
        nameIn value = some (String.ofList (value.toList.drop 1)) := by
    intro form hform hcases
    unfold ValueForm.ofText at hform
    split at hform
    · exact nameIn_eq ‹_› rfl
    · exact nameIn_eq ‹_› rfl
    · subst hform
      rcases hcases with h | h <;> cases h
  unfold reference Reference.ofValue?
  cases hform : ValueForm.ofText value.toList with
  | constant =>
    rw [hmarked _ hform (.inl rfl)]
    rfl
  | racialConstant =>
    rw [hmarked _ hform (.inr rfl)]
    rfl
  | _ => rfl

/-! ## Schemas -/

/-- Follows the numbers of the members of a union, where they are tested. No other type has numbers to
follow. -/
def checkSimpleAt (s : Schema) (value : String) : Nat → SimpleTypeId → Option (Except ValueFault Unit)
  | 0, id => s.simpleTypes[id]?.map fun _ => s.checkValueAt value 0 id
  | d + 1, id => do
    let t ← s.simpleTypes[id]?
    if (t.nullable && value.isEmpty) || t.kind ≠ .union then
      return s.checkValueAt value (d + 1) id
    if ← t.union.anyM fun m => (checkSimpleAt s value d m).map (·.isOk) then return .ok ()
    let members ← t.union.mapM fun m => s.simpleTypes[m]?
    return .error (.noUnionMember (members.map (·.name)))

def checkSimple (s : Schema) (value : String) (id : SimpleTypeId) : Option (Except ValueFault Unit) :=
  checkSimpleAt s value unionDepth id

def slotKind (s : Schema) (slot : SlotId) : Option SlotKind := s.slots[slot]?.map (·.kind)

def hasClass (s : Schema) (f : FrameType) (name : String) : Option Bool :=
  f.classes.anyM fun c => s.classes[c]?.map fun d => d.name = name

/-- The entry of a number, if there is a number. -/
def entry {α : Type} (table : Array α) : Option Nat → Option (Option α)
  | none => some none
  | some id => table[id]?.map some

def isOfKind (s : Schema) (f : FrameType) (kind : String) : Option Bool := do
  if ← hasClass s f kind then return true
  let named ← entry s.frameTypes (s.frameTypeNamed? kind)
  match ← entry s.classes (named.bind (·.classes.head?)) with
  | none => return false
  | some c => hasClass s f c.name

section

variable {s : Schema}

theorem checkSimpleAt_eq (hs : s.Closed) (value : String) (depth : Nat) {id : SimpleTypeId}
    (hid : id < s.simpleTypes.size) :
    checkSimpleAt s value depth id = some (s.checkValueAt value depth id) := by
  induction depth generalizing id with
  | zero =>
    rw [checkSimpleAt, Array.getElem?_eq_getElem hid]
    rfl
  | succ d ih =>
    have hmembers := hs.unions s.simpleTypes[id] (Array.getElem_mem hid)
    have htested := anyM_eq_some (l := s.simpleTypes[id].union)
      (f := fun m => (checkSimpleAt s value d m).map (·.isOk))
      (p := fun m => (s.checkValueAt value d m).isOk) fun m hm => by rw [ih (hmembers m hm)]; rfl
    have hread := mapM_eq_filterMap (l := s.simpleTypes[id].union) (f := fun m => s.simpleTypes[m]?)
      fun m hm => ⟨_, Array.getElem?_eq_getElem (hmembers m hm)⟩
    rw [checkSimpleAt, Array.getElem?_eq_getElem hid]
    simp only [Option.bind_eq_bind, Option.bind_some]
    split
    · rfl
    · rename_i hunion
      obtain ⟨hempty, hkind⟩ : ¬ (s.simpleTypes[id].nullable && value.isEmpty) = true ∧
          s.simpleTypes[id].kind = .union := by simpa using hunion
      rw [Schema.checkValueAt, Array.getElem?_eq_getElem hid]
      simp only [htested, hread, Option.bind_some, if_neg hempty, hkind]
      split
      · rfl
      · rw [List.map_filterMap]
        rfl

theorem checkSimple_eq (hs : s.Closed) (value : String) {id : SimpleTypeId}
    (hid : id < s.simpleTypes.size) : checkSimple s value id = some (s.checkValue value id) :=
  checkSimpleAt_eq hs value unionDepth hid

theorem slotKind_eq {slot : SlotId} (h : slot < s.slots.size) :
    slotKind s slot = some (s.slotKind slot) := by
  rw [slotKind, Schema.slotKind, Array.getElem?_eq_getElem h]
  rfl

theorem hasClass_eq {f : FrameType} (h : ∀ c ∈ f.classes, c < s.classes.size) (name : String) :
    hasClass s f name = some (f.hasClass s name) := by
  refine anyM_eq_some fun c hc => ?_
  rw [Array.getElem?_eq_getElem (h c hc)]
  simp

theorem entry_eq {α : Type} {table : Array α} {id? : Option Nat}
    (h : ∀ id, id? = some id → id < table.size) :
    entry table id? = some (id?.bind (table[·]?)) := by
  cases id? with
  | none => rfl
  | some id =>
    rw [entry, Option.bind_some, Array.getElem?_eq_getElem (h id rfl)]
    rfl

theorem isOfKind_eq (hs : s.Closed) {f : FrameType} (hf : ∀ c ∈ f.classes, c < s.classes.size)
    (kind : String) : isOfKind s f kind = some (Hierarchy.isOfKind s f kind) := by
  have hnamed : entry s.frameTypes (s.frameTypeNamed? kind) =
      some ((s.frameTypeNamed? kind).bind (s.frameTypes[·]?)) :=
    entry_eq fun id h => (Array.findIdx?_eq_some_iff_getElem.1 h).1
  have hclass : entry s.classes
      (((s.frameTypeNamed? kind).bind (s.frameTypes[·]?)).bind (·.classes.head?)) =
        some ((((s.frameTypeNamed? kind).bind (s.frameTypes[·]?)).bind (·.classes.head?)).bind
          (s.classes[·]?)) := by
    refine entry_eq fun id h => ?_
    obtain ⟨other, hother, hhead⟩ := Option.bind_eq_some_iff.1 h
    obtain ⟨i, -, hi⟩ := Option.bind_eq_some_iff.1 hother
    exact (hs.frameTypes other (Array.mem_of_getElem? hi)).2 id (List.mem_of_head? hhead)
  rw [isOfKind, Hierarchy.isOfKind, hasClass_eq hf, hnamed]
  simp only [Option.bind_eq_bind, Option.bind_some, hclass]
  cases f.hasClass s kind with
  | true => rfl
  | false =>
    rw [Bool.false_or]
    generalize Option.bind _ _ = c?
    cases c? with
    | none => rfl
    | some c => exact hasClass_eq hf c.name

end

/-! ## Documents -/

/-- Goes down as far as `bound` levels. -/
def subtree (doc : Document) : Nat → ElementId → Option (List ElementId)
  | 0, _ => none
  | bound + 1, id => do
    let e ← doc.element? id
    let below ← e.children.mapM (subtree doc bound)
    return id :: below.flatten

def descendants (doc : Document) : Option (List ElementId) :=
  match doc.root? with
  | none => some []
  | some top => subtree doc doc.size top

/-- Some elements of a document, with their numbers. -/
def elements (doc : Document) (ids : List ElementId) : Option (List (ElementId × Element)) :=
  ids.mapM fun id => (doc.element? id).map (id, ·)

def boundElements (doc : Document) : Option (List (ElementId × Element × Binding)) := do
  let ids ← descendants doc
  let found ← elements doc ids
  return found.filterMap fun x => x.2.binding?.map fun b => (x.1, x.2, b)

section

variable {doc : Document}

theorem exists_element? {id : ElementId} (h : id < doc.size) : ∃ e, doc.element? id = some e :=
  ⟨doc.elements[id], Array.getElem?_eq_getElem h⟩

theorem subtree_eq (h : doc.Nested) {bound id : Nat} (hid : id < doc.size)
    (hbound : doc.size ≤ bound + id) : subtree doc bound id = some (doc.subtree id) := by
  induction bound generalizing id with
  | zero => omega
  | succ bound ih =>
    obtain ⟨e, he⟩ := exists_element? hid
    have hbelow : e.children.mapM (subtree doc bound) = some (e.children.map doc.subtree) := by
      refine mapM_eq_some fun child hchild => ?_
      obtain ⟨hlt, hsize⟩ := h.children he child hchild
      have hnext : id + 1 ≤ child := hlt
      exact ih hsize (by omega)
    rw [subtree, he, Document.subtree_eq_flatMap, h.below_eq he]
    simp only [Option.bind_eq_bind, Option.bind_some, hbelow, List.flatMap_def]
    rfl

theorem descendants_eq (h : doc.Nested) : descendants doc = some doc.descendants := by
  unfold descendants Document.descendants
  cases hroot : doc.root? with
  | none => rfl
  | some top => exact subtree_eq h (h.root top hroot) (Nat.le_add_right _ _)

theorem elements_eq {ids : List ElementId} (h : ∀ id ∈ ids, id < doc.size) :
    elements doc ids = some (ids.filterMap fun id => (doc.element? id).map (id, ·)) := by
  refine mapM_eq_filterMap fun id hid => ?_
  obtain ⟨e, he⟩ := exists_element? (h id hid)
  exact ⟨(id, e), by rw [he]; rfl⟩

theorem boundElements_eq (h : doc.Nested) : boundElements doc = some (Check.boundElements doc) := by
  rw [boundElements, descendants_eq h]
  simp only [Option.bind_eq_bind, Option.bind_some, elements_eq h.descendants_lt]
  rw [Check.boundElements, List.filterMap_filterMap]
  refine congrArg some (List.filterMap_congr fun id _ => ?_)
  cases doc.element? id <;> rfl

end

end Strict
end UILayout
