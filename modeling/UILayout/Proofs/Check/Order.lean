import UILayout.Proofs.Check.Conformance
import UILayout.Proofs.Check.FileLink
import UILayout.Proofs.Markup.InOrder

/-!
# UILayout.Proofs.Check.Order

The order of the reports on a document. Those on conformance come first. Of the others, those on an
element come before those on elements that start later. For the ones on conformance this is not so: an
element reports on the unknown elements below it before the elements in front of these have reported on
themselves.

* `names_inDocumentOrder`: the reports that are in order.
* `structure_inDocumentOrder`, `nothingBetween`, `reports_inDocumentOrder`: when all of them are.
* `unknown_before_missing`: two that are not.
-/

namespace UILayout
namespace Check

open Text Schema Markup Namespace Workspace

/-- Reports, each with the element that it is about, in the order in which these elements start. -/
def InDocumentOrder (reports : List (Element × Report)) : Prop :=
  reports.Pairwise fun x y => x.1.start ≤ y.1.start

/-- The reports on unknown elements, with the elements. -/
def unknownAbout (doc : Document) (id : ElementId) : List (Element × Report) :=
  ((doc.below id).filterMap doc.element?).filterMap fun child =>
    if child.binding?.isNone then
      some (child, .plain (.unknownElement child.tag) (tagNameSpan child)) else none

def structureAboutOf (s : Schema) (doc : Document) (bound : ElementId × Element × Binding) :
    List (Element × Report) :=
  (missingOf s bound.2.1 bound.2.2).map (bound.2.1, ·) ++ unknownAbout doc bound.1

/-- The reports on conformance, with the elements that they are about. -/
def structureAbout (s : Schema) (doc : Document) : List (Element × Report) :=
  (boundElements doc).flatMap (structureAboutOf s doc)

/-- All other reports, with the elements that they are about. -/
def namesAbout (ctx : Context) (h : Hierarchy) (doc : Document) : List (Element × Report) :=
  (boundElements doc).flatMap fun bound =>
    (checkElement ctx doc h bound).1.map (bound.2.1, ·)

/-! ## What the reports are about -/

section

variable {s : Schema} {doc : Document} {bound : ElementId × Element × Binding}

theorem map_snd_unknownAbout (doc : Document) (id : ElementId) :
    (unknownAbout doc id).map (·.2) = unknownElements doc id := by
  unfold unknownAbout unknownElements
  rw [List.map_filterMap]
  refine List.filterMap_congr fun child _ => ?_
  split <;> rfl

theorem map_snd_structureAboutOf :
    (structureAboutOf s doc bound).map (·.2) = structureOf s doc bound.1 bound.2.1 bound.2.2 := by
  rw [structureAboutOf, List.map_append, map_snd_unknownAbout, List.map_map, structureOf_eq]
  exact congrArg (· ++ _) (List.map_id _)

theorem map_snd_structureAbout (s : Schema) (doc : Document) :
    (structureAbout s doc).map (·.2) = structureReports s doc := by
  rw [structureAbout, List.map_flatMap]
  exact List.flatMap_congr fun bound _ => map_snd_structureAboutOf

theorem map_snd_namesAbout (ctx : Context) (h : Hierarchy) (doc : Document) :
    (namesAbout ctx h doc).map (·.2) =
      (boundElements doc).flatMap fun bound => (checkElement ctx doc h bound).1 := by
  rw [namesAbout, List.map_flatMap]
  refine List.flatMap_congr fun bound _ => ?_
  rw [List.map_map]
  exact List.map_id _

theorem mem_unknownAbout_iff (hdoc : doc.Nested) {id : ElementId} {x : Element × Report} :
    x ∈ unknownAbout doc id ↔ ∃ child, doc.Child id child ∧ doc.element? child = some x.1 ∧
      x.1.binding? = none ∧ x.2 = .plain (.unknownElement x.1.tag) (tagNameSpan x.1) := by
  constructor
  · intro hx
    obtain ⟨c, hc, hx⟩ := List.mem_filterMap.1 hx
    obtain ⟨child, hchild, hc⟩ := List.mem_filterMap.1 hc
    split at hx
    · rename_i hnone
      cases hx
      exact ⟨child, hdoc.mem_below_iff.1 hchild, hc, Option.isNone_iff_eq_none.1 hnone, rfl⟩
    · cases hx
  · obtain ⟨c, r⟩ := x
    rintro ⟨child, hchild, hc, hnone, hr⟩
    refine List.mem_filterMap.2 ⟨c, List.mem_filterMap.2 ⟨child, hdoc.mem_below_iff.2 hchild, hc⟩, ?_⟩
    rw [if_pos (Option.isNone_iff_eq_none.2 hnone)]
    exact congrArg (fun r => some (c, r)) hr.symm

/-- A report on conformance is about an element that lacks an attribute, or about an unknown one. -/
theorem about_of_mem_structureAbout (hdoc : doc.Nested) {x : Element × Report}
    (hx : x ∈ structureAbout s doc) :
    (∃ name, x.2 = .plain (.missingAttribute name) x.1.tagSpan) ∨
      x.2 = .plain (.unknownElement x.1.tag) (tagNameSpan x.1) := by
  obtain ⟨bound, -, hx⟩ := List.mem_flatMap.1 hx
  rcases List.mem_append.1 hx with hx | hx
  · obtain ⟨r, hr, rfl⟩ := List.mem_map.1 hx
    rw [missingOf_eq] at hr
    obtain ⟨name, -, rfl⟩ := List.mem_map.1 hr
    exact .inl ⟨name, rfl⟩
  · obtain ⟨-, -, -, -, hr⟩ := (mem_unknownAbout_iff hdoc).1 hx
    exact .inr hr

end

/-! ## Order -/

section

variable {s : Schema} {ctx : Context} {h : Hierarchy} {doc : Document}

/-- In a list that is sorted by numbers, the smaller one of two numbers comes first. -/
theorem rel_of_lt {α : Type} {number : α → Nat} {R : α → α → Prop} {items : List α}
    (hsorted : items.Pairwise fun x y => number x < number y) (hrel : items.Pairwise R) {a b : α}
    (ha : a ∈ items) (hb : b ∈ items) (hlt : number a < number b) : R a b := by
  induction items with
  | nil => cases ha
  | cons first rest ih =>
    rw [List.pairwise_cons] at hsorted hrel
    rcases List.mem_cons.1 ha with rfl | ha
    · rcases List.mem_cons.1 hb with rfl | hb
      · exact absurd hlt (Nat.lt_irrefl _)
      · exact hrel.1 b hb
    · rcases List.mem_cons.1 hb with hfirst | hb
      · exact absurd hlt (Nat.lt_asymm (hfirst ▸ hsorted.1 a ha))
      · exact ih hsorted.2 hrel.2 ha hb

theorem start_lt_of_boundElements (hdoc : doc.InOrder) :
    (boundElements doc).Pairwise fun x y => x.2.1.start < y.2.1.start := by
  have hids := hdoc.ascending_descendants.sublist (sublist_boundElements doc)
  refine (List.pairwise_map.1 hids).imp_of_mem fun {x y} hx hy hlt => ?_
  exact hdoc.starts (mem_boundElements_iff.1 hx).2.1 (mem_boundElements_iff.1 hy).2.1 hlt

/-- The reports on what elements and attributes name come in the order of the elements. -/
theorem names_inDocumentOrder (hdoc : doc.InOrder) : InDocumentOrder (namesAbout ctx h doc) := by
  refine List.pairwise_flatMap.2 ⟨fun bound _ => ?_, ?_⟩
  · exact List.pairwise_map.2 (List.pairwise_of_forall fun _ _ => Nat.le_refl _)
  · refine (start_lt_of_boundElements hdoc).imp fun {bound bound'} hlt x hx y hy => ?_
    obtain ⟨_, -, rfl⟩ := List.mem_map.1 hx
    obtain ⟨_, -, rfl⟩ := List.mem_map.1 hy
    exact Nat.le_of_lt hlt

/-- An element reports on itself, and on children, which start behind it. -/
theorem structureAboutOf_inDocumentOrder (hdoc : doc.InOrder)
    {bound : ElementId × Element × Binding} (hbound : bound ∈ boundElements doc) :
    InDocumentOrder (structureAboutOf s doc bound) ∧
      ∀ x ∈ structureAboutOf s doc bound, bound.2.1.start ≤ x.1.start := by
  have he := (mem_boundElements_iff.1 hbound).2.1
  have hchildren : ∀ x ∈ unknownAbout doc bound.1, bound.2.1.start < x.1.start := by
    intro x hx
    obtain ⟨child, hchild, hc, -, -⟩ := (mem_unknownAbout_iff hdoc.toNested).1 hx
    exact hdoc.starts he hc (hdoc.parent_lt ((hdoc.child_iff _ _).1 hchild))
  have hascending : InDocumentOrder (unknownAbout doc bound.1) := by
    refine List.pairwise_filterMap.2 (List.pairwise_filterMap.2 ?_)
    refine (hdoc.ascending_below bound.1).imp fun {i j} hij a ha b hb x hx y hy => ?_
    have hstart := Nat.le_of_lt (hdoc.starts ha hb hij)
    split at hx <;> split at hy <;> cases hx <;> cases hy
    exact hstart
  have hself : ∀ x ∈ (missingOf s bound.2.1 bound.2.2).map (bound.2.1, ·),
      x.1.start = bound.2.1.start := by
    intro x hx
    obtain ⟨_, -, rfl⟩ := List.mem_map.1 hx
    rfl
  constructor
  · refine List.pairwise_append.2 ⟨?_, hascending, fun x hx y hy => ?_⟩
    · exact List.pairwise_map.2 (List.pairwise_of_forall fun _ _ => Nat.le_refl _)
    · rw [hself x hx]
      exact Nat.le_of_lt (hchildren y hy)
  · intro x hx
    rcases List.mem_append.1 hx with hx | hx
    · exact Nat.le_of_eq (hself x hx).symm
    · exact Nat.le_of_lt (hchildren x hx)

/-- No element between an element and an unknown one below it has anything to report on conformance. -/
def NothingBetween (s : Schema) (doc : Document) : Prop :=
  ∀ bound ∈ boundElements doc, ∀ child c, doc.Child bound.1 child → doc.element? child = some c →
    c.binding? = none → ∀ other ∈ boundElements doc, bound.2.1.start < other.2.1.start →
      other.2.1.start < c.start → structureOf s doc other.1 other.2.1 other.2.2 = []

theorem structure_inDocumentOrder (hdoc : doc.InOrder) (hnothing : NothingBetween s doc) :
    InDocumentOrder (structureAbout s doc) := by
  refine List.pairwise_flatMap.2
    ⟨fun bound hbound => (structureAboutOf_inDocumentOrder hdoc hbound).1, ?_⟩
  refine (start_lt_of_boundElements hdoc).imp_of_mem fun {bound other} hbound hother hlt x hx y hy => ?_
  have hy' := (structureAboutOf_inDocumentOrder hdoc hother).2 y hy
  rcases List.mem_append.1 hx with hx | hx
  · obtain ⟨_, -, rfl⟩ := List.mem_map.1 hx
    exact Nat.le_trans (Nat.le_of_lt hlt) hy'
  · obtain ⟨child, hchild, hc, hnone, -⟩ := (mem_unknownAbout_iff hdoc.toNested).1 hx
    refine Nat.le_trans (Nat.le_of_not_lt fun hfront => ?_) hy'
    have hempty := hnothing bound hbound child x.1 hchild hc hnone other hother hlt hfront
    rw [← map_snd_structureAboutOf, List.map_eq_nil_iff] at hempty
    rw [hempty] at hy
    cases hy

theorem nothingBetween (hdoc : doc.InOrder) (horder : InDocumentOrder (structureAbout s doc)) :
    NothingBetween s doc := by
  intro bound hbound child c hchild hc hnone other hother hlt hfront
  have he := (mem_boundElements_iff.1 hbound).2.1
  have ho := (mem_boundElements_iff.1 hother).2.1
  have hids : bound.1 < other.1 := (hdoc.start_lt_iff he ho).1 hlt
  have hbefore : other.1 < child := (hdoc.start_lt_iff ho hc).1 hfront
  have hx : (c, .plain (.unknownElement c.tag) (tagNameSpan c)) ∈ structureAboutOf s doc bound :=
    List.mem_append_right _ ((mem_unknownAbout_iff hdoc.toNested).2 ⟨child, hchild, hc, hnone, rfl⟩)
  -- the reports of the other element come later, and all of them are about elements in front of `c`
  have hlater : ∀ y ∈ structureAboutOf s doc other, c.start ≤ y.1.start :=
    rel_of_lt (start_lt_of_boundElements hdoc) (List.pairwise_flatMap.1 horder).2 hbound hother hlt _ hx
  rw [← map_snd_structureAboutOf, List.map_eq_nil_iff, List.eq_nil_iff_forall_not_mem]
  intro y hy
  refine absurd (hlater y hy) (Nat.not_le.2 ?_)
  rcases List.mem_append.1 hy with hy | hy
  · obtain ⟨_, -, rfl⟩ := List.mem_map.1 hy
    exact hfront
  · obtain ⟨j, hj, hy, -, -⟩ := (mem_unknownAbout_iff hdoc.toNested).1 hy
    exact hdoc.starts hy hc (hdoc.lt_of_between hchild hids hbefore (.single hj))

end

/-! ## Documents of a session -/

theorem inOrder_after (s : Schema) {commands : List Command} (hc : ∀ c ∈ commands, c.SetsRead)
    {id : DocumentId} {doc : Document}
    (hdoc : (after s commands).context.document? id = some doc) : doc.InOrder := by
  obtain ⟨-, read, ⟨text, hread⟩, rfl⟩ := (read_after s hc).documents hdoc
  exact (Document.inOrder_ofText hread).bind _

/-- The reports on a document that has been read are those on conformance, which are about elements that
lack attributes or are unknown, and then all others. The others are in the order of the elements that
they are about. The ones on conformance are so just when no element reports on conformance that starts
between another one and an unknown element below that. -/
theorem reports_inDocumentOrder (s : Schema) {commands : List Command}
    (hc : ∀ c ∈ commands, c.SetsRead) {id : DocumentId} {doc : Document}
    (hdoc : (after s commands).context.document? id = some doc) :
    let w := after s commands
    let first := structureAbout w.context.schema doc
    let rest := namesAbout w.context w.hierarchy doc
    (w.check id).1 = first.map (·.2) ++ rest.map (·.2) ∧
    (∀ x ∈ first, (∃ name, x.2 = .plain (.missingAttribute name) x.1.tagSpan) ∨
      x.2 = .plain (.unknownElement x.1.tag) (tagNameSpan x.1)) ∧
    (∀ x ∈ rest, x.2.finding.code ≠ "E0002" ∧ x.2.finding.code ≠ "E0004") ∧
    InDocumentOrder rest ∧ (InDocumentOrder first ↔ NothingBetween w.context.schema doc) := by
  intro w first rest
  have horder := inOrder_after s hc hdoc
  refine ⟨?_, fun x hx => about_of_mem_structureAbout horder.toNested hx, fun x hx => ?_,
    names_inDocumentOrder horder, nothingBetween horder, structure_inDocumentOrder horder⟩
  · rw [reports_check s commands hdoc, map_snd_structureAbout, map_snd_namesAbout]
  · obtain ⟨bound, -, hx⟩ := List.mem_flatMap.1 hx
    obtain ⟨r, hr, rfl⟩ := List.mem_map.1 hx
    rw [← not_or, ← Finding.isStructural_iff, isStructural_checkElement hr]
    exact Bool.false_ne_true

/-- Frames must have a name, and may stand in a document and in each other. -/
def namedFrames : Schema :=
  { framesOnly with
    complexTypes := #[framed,
      { framed with attributes := ⟨[("name", ⟨"name", 0, true, none, none, none⟩)]⟩ }]
    slots := #[⟨"Desc", .desc, 0, .empty, none, none⟩, ⟨"Frame", .frame, 1, .empty, none, none⟩] }

/-- Two elements, one behind the other. -/
def twoElements (first second : String) : List Command :=
  [.setFile "A" ("<Desc><" ++ first ++ "/><" ++ second ++ "/></Desc>").toList]

theorem setsRead_twoElements (first second : String) : ∀ c ∈ twoElements first second, c.SetsRead := by
  rintro c (_ | ⟨_, ⟨⟩⟩)
  trivial

theorem inDocumentOrder_of_starts {reports : List (Element × Report)} {starts : List Nat}
    (h : reports.map (·.1.start) = starts) : InDocumentOrder reports ↔ starts.Pairwise (· ≤ ·) := by
  rw [← h, List.pairwise_map]
  rfl

/-- An unknown element in front of a frame without a name. -/
theorem reports_inDocumentOrder_unknown_first :
    let w := after namedFrames (twoElements "Bogus" "Frame")
    ∃ doc, (w.context.document? 0 = some doc ∧ ∀ c ∈ twoElements "Bogus" "Frame", c.SetsRead) ∧
      InDocumentOrder (structureAbout w.context.schema doc) ∧ NothingBetween w.context.schema doc ∧
      InDocumentOrder (namesAbout w.context w.hierarchy doc) := by
  intro w
  have hstarts : (w.context.document? 0).map (fun doc =>
      (structureAbout w.context.schema doc).map (·.1.start)) = some [6, 14] := by decide +kernel
  obtain ⟨doc, hdoc, hstarts⟩ := Option.map_eq_some_iff.1 hstarts
  have hc := setsRead_twoElements "Bogus" "Frame"
  obtain ⟨-, -, -, hrest, hfirst⟩ := reports_inDocumentOrder namedFrames hc hdoc
  have horder : InDocumentOrder (structureAbout w.context.schema doc) :=
    (inDocumentOrder_of_starts hstarts).2 (by decide)
  exact ⟨doc, ⟨hdoc, hc⟩, horder, hfirst.1 horder, hrest⟩

/-- An unknown element behind a frame without a name: the report on it comes before that on the frame. -/
theorem unknown_before_missing :
    let w := after namedFrames (twoElements "Frame" "Bogus")
    ∃ doc, w.context.document? 0 = some doc ∧
      (w.check 0).1 = [.plain (.unknownElement "Bogus") ⟨15, 20⟩,
        .plain (.missingAttribute "name") ⟨6, 14⟩] ∧
      (structureAbout w.context.schema doc).map (·.2) = (w.check 0).1 ∧
      ¬ InDocumentOrder (structureAbout w.context.schema doc) := by
  intro w
  have hreports : (w.check 0).1 = [.plain (.unknownElement "Bogus") ⟨15, 20⟩,
      .plain (.missingAttribute "name") ⟨6, 14⟩] := by decide +kernel
  have hstarts : (w.context.document? 0).map (fun doc =>
      ((structureAbout w.context.schema doc).map (·.1.start),
        (structureAbout w.context.schema doc).map (·.2))) = some ([14, 6], (w.check 0).1) := by
    decide +kernel
  obtain ⟨doc, hdoc, heq⟩ := Option.map_eq_some_iff.1 hstarts
  obtain ⟨hstarts, hsame⟩ := Prod.mk.inj heq
  exact ⟨doc, hdoc, hreports, hsame, fun horder =>
    absurd ((inDocumentOrder_of_starts hstarts).1 horder) (by decide)⟩

end Check
end UILayout
