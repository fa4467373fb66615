import UILayout.Proofs.Check.Codes
import UILayout.Proofs.Markup.Tree
import UILayout.Proofs.Schema.Named
import UILayout.Proofs.Workspace.Texts

/-!
# UILayout.Proofs.Check.Conformance

Whether elements and attributes are what the schema asks for. The walk over a document comes to every
element that the schema knows once: so there is one report for every attribute that such an element must
have and lacks, and one for every element below it that the schema does not know. What is below an
element that the schema does not know is not known either, and makes no difference to any report.

* `mem_boundElements_iff`, `nodup_boundElements`: the elements that are checked.
* `document_cut`: what is below unknown elements.
* `conformance_exact`: all reports on conformance.
-/

namespace UILayout
namespace Check

open Text Schema Markup Namespace Workspace

/-! ## Elements that are checked -/

section

variable {doc : Document}

theorem mem_boundElements_iff {id : ElementId} {e : Element} {b : Binding} :
    (id, e, b) ∈ boundElements doc ↔
      id ∈ doc.descendants ∧ doc.element? id = some e ∧ e.binding? = some b := by
  constructor
  · intro h
    obtain ⟨j, hj, hbound⟩ := List.mem_filterMap.1 h
    obtain ⟨e', he', hbinding⟩ := Option.bind_eq_some_iff.1 hbound
    obtain ⟨b', hb', heq⟩ := Option.map_eq_some_iff.1 hbinding
    cases heq
    exact ⟨hj, he', hb'⟩
  · rintro ⟨hid, he, hb⟩
    exact List.mem_filterMap.2 ⟨id, hid, by rw [he, Option.bind_some, hb, Option.map_some]⟩

/-- The checked elements come in the order of the walk. -/
theorem sublist_boundElements (doc : Document) :
    ((boundElements doc).map (·.1)).Sublist doc.descendants := by
  unfold boundElements
  induction doc.descendants with
  | nil => exact .slnil
  | cons id rest ih =>
    rw [List.filterMap_cons]
    split
    · exact ih.cons id
    · rename_i bound hbound
      obtain ⟨e, -, hbinding⟩ := Option.bind_eq_some_iff.1 hbound
      obtain ⟨b, -, rfl⟩ := Option.map_eq_some_iff.1 hbinding
      exact ih.cons_cons id

theorem nodup_boundElements (h : doc.Tree) : ((boundElements doc).map (·.1)).Nodup :=
  h.nodup_descendants.sublist (sublist_boundElements doc)

end

/-! ## One report each -/

/-- There is one report for everything of a kind, and no other. -/
def OneEach {α : Type} (kind : α → Prop) (report : α → Report → Prop) (reports : List Report) : Prop :=
  ∃ all : List α, all.Nodup ∧ (∀ x, x ∈ all ↔ kind x) ∧ List.Forall₂ report all reports

theorem OneEach.of_singleton {α : Type} {kind : α → Prop} {report : α → Report → Prop} {r : Report}
    (h : OneEach kind report [r]) : ∃ x, (∀ y, kind y ↔ y = x) ∧ report x r := by
  obtain ⟨all, -, hmem, hall⟩ := h
  obtain ⟨x, _, hx, hnil, rfl⟩ := List.forall₂_cons_right_iff.1 hall
  obtain rfl := List.forall₂_nil_right_iff.1 hnil
  exact ⟨x, fun y => by rw [← hmem, List.mem_singleton], hx⟩

theorem forall₂_flatMap {α β γ : Type} {R : β → γ → Prop} {items : List α} {f : α → List β}
    {g : α → List γ} (h : ∀ a ∈ items, List.Forall₂ R (f a) (g a)) :
    List.Forall₂ R (items.flatMap f) (items.flatMap g) := by
  induction items with
  | nil => exact .nil
  | cons a rest ih =>
    exact List.rel_append (h a List.mem_cons_self) (ih fun b hb => h b (List.mem_cons_of_mem a hb))

/-- What belongs to the checked elements, and to each something else, comes once. -/
theorem nodup_flatMap_boundElements {doc : Document} (h : doc.Tree) {α : Type}
    {f : ElementId × Element × Binding → List α}
    (hnodup : ∀ bound ∈ boundElements doc, (f bound).Nodup)
    (hapart : ∀ bound ∈ boundElements doc, ∀ bound' ∈ boundElements doc, ∀ x ∈ f bound, x ∈ f bound' →
      bound.1 = bound'.1) : ((boundElements doc).flatMap f).Nodup := by
  refine List.nodup_flatMap.2 ⟨hnodup, ?_⟩
  refine (List.pairwise_map.1 (nodup_boundElements h)).imp_of_mem ?_
  intro bound bound' hbound hbound' hne x hx hx'
  exact hne (hapart bound hbound bound' hbound' x hx hx')

/-! ## Missing attributes -/

/-- An element of the tree has a type that requires an attribute, and does not have the attribute. -/
def Lacks (s : Schema) (doc : Document) (id : ElementId) (name : String) : Prop :=
  doc.Reached id ∧ ∃ e b t a, doc.element? id = some e ∧ e.binding? = some b ∧
    s.complexTypes[b.type]? = some t ∧ t.attributes.get? name = some a ∧ a.required = true ∧
    e.attribute? name = none

/-- The names of the required attributes that an element lacks. -/
def lackingNames (s : Schema) (e : Element) (b : Binding) : List String :=
  ((s.complexTypes[b.type]?.map fun t =>
    (t.attributes.values.filter fun a => a.required && (e.attribute? a.name).isNone).map
      (·.name)).getD [])

def missingOf (s : Schema) (e : Element) (b : Binding) : List Report :=
  (s.complexTypes[b.type]?.map fun t => missingAttributes t e).getD []

section

variable {s : Schema} {e : Element} {b : Binding}

theorem missingOf_eq : missingOf s e b =
    (lackingNames s e b).map fun name => .plain (.missingAttribute name) e.tagSpan := by
  unfold missingOf lackingNames missingAttributes
  cases s.complexTypes[b.type]? with
  | none => rfl
  | some t => simp

theorem nodup_lackingNames (hs : ∀ t ∈ s.complexTypes, Named t.attributes) :
    (lackingNames s e b).Nodup := by
  unfold lackingNames
  cases ht : s.complexTypes[b.type]? with
  | none => exact List.nodup_nil
  | some t =>
    have hnamed := hs t (Array.mem_of_getElem? ht)
    refine List.Nodup.sublist (List.filter_sublist.map _) ?_
    rw [hnamed.map_name_values]
    exact hnamed.nodup

theorem mem_lackingNames_iff (hs : ∀ t ∈ s.complexTypes, Named t.attributes) {name : String} :
    name ∈ lackingNames s e b ↔ ∃ t a, s.complexTypes[b.type]? = some t ∧
      t.attributes.get? name = some a ∧ a.required = true ∧ e.attribute? name = none := by
  unfold lackingNames
  cases ht : s.complexTypes[b.type]? with
  | none => simp
  | some t =>
    have hnamed := hs t (Array.mem_of_getElem? ht)
    simp only [Option.map_some, Option.getD_some, List.mem_map, List.mem_filter, Bool.and_eq_true,
      Option.isNone_iff_eq_none]
    constructor
    · rintro ⟨a, ⟨hvalue, hrequired, hnone⟩, rfl⟩
      obtain ⟨key, hkey⟩ := (OrderedMap.mem_values_iff hnamed.nodup a).1 hvalue
      exact ⟨t, a, rfl, (hnamed.name_eq hkey).symm ▸ hkey, hrequired, hnone⟩
    · rintro ⟨_, a, ⟨⟩, ha, hrequired, hnone⟩
      have hname := hnamed.name_eq ha
      exact ⟨a, ⟨OrderedMap.mem_values_of_get? ha, hrequired, hname ▸ hnone⟩, hname⟩

theorem missing_exact {doc : Document} (hs : ∀ t ∈ s.complexTypes, Named t.attributes)
    (hdoc : doc.Tree) :
    OneEach (fun x : ElementId × String => Lacks s doc x.1 x.2)
      (fun x r => ∃ e, doc.element? x.1 = some e ∧ r = .plain (.missingAttribute x.2) e.tagSpan)
      ((boundElements doc).flatMap fun bound => missingOf s bound.2.1 bound.2.2) := by
  refine ⟨(boundElements doc).flatMap fun bound =>
    (lackingNames s bound.2.1 bound.2.2).map (bound.1, ·), ?_, fun ⟨id, name⟩ => ?_, ?_⟩
  · refine nodup_flatMap_boundElements hdoc ?_ ?_
    · exact fun bound _ => (nodup_lackingNames hs).map fun _ _ heq => (Prod.mk.inj heq).2
    · intro bound _ bound' _ x hx hx'
      obtain ⟨_, -, rfl⟩ := List.mem_map.1 hx
      obtain ⟨_, -, heq⟩ := List.mem_map.1 hx'
      exact (Prod.mk.inj heq).1.symm
  · constructor
    · intro hmem
      obtain ⟨⟨j, e, b⟩, hbound, hx⟩ := List.mem_flatMap.1 hmem
      obtain ⟨_, hname, heq⟩ := List.mem_map.1 hx
      cases heq
      obtain ⟨hj, he, hb⟩ := mem_boundElements_iff.1 hbound
      obtain ⟨t, a, ht, ha⟩ := (mem_lackingNames_iff hs).1 hname
      exact ⟨hdoc.mem_descendants_iff.1 hj, e, b, t, a, he, hb, ht, ha⟩
    · rintro ⟨hreached, e, b, t, a, he, hb, ht, ha⟩
      have hbound := mem_boundElements_iff.2 ⟨hdoc.mem_descendants_iff.2 hreached, he, hb⟩
      exact List.mem_flatMap.2 ⟨(id, e, b), hbound,
        List.mem_map_of_mem ((mem_lackingNames_iff hs).2 ⟨t, a, ht, ha⟩)⟩
  · refine forall₂_flatMap fun ⟨id, e, b⟩ hbound => ?_
    rw [missingOf_eq, List.forall₂_map_left_iff, List.forall₂_map_right_iff]
    exact List.forall₂_same.2 fun name _ => ⟨e, (mem_boundElements_iff.1 hbound).2.1, rfl⟩

end

/-! ## Unknown elements -/

/-- An element that the schema does not know, as a child of one of the tree that it knows. -/
def Stranger (doc : Document) (child : ElementId) : Prop :=
  ∃ id e b c, doc.Reached id ∧ doc.element? id = some e ∧ e.binding? = some b ∧ doc.Child id child ∧
    doc.element? child = some c ∧ c.binding? = none

def isUnbound (doc : Document) (id : ElementId) : Bool :=
  (doc.element? id).any (·.binding?.isNone)

section

variable {doc : Document}

theorem forall₂_unknownElements (id : ElementId) :
    List.Forall₂ (fun child r => ∃ c, doc.element? child = some c ∧
        r = .plain (.unknownElement c.tag) (tagNameSpan c))
      ((doc.below id).filter (isUnbound doc)) (unknownElements doc id) := by
  unfold unknownElements
  induction doc.below id with
  | nil => exact .nil
  | cons child rest ih =>
    cases hc : doc.element? child with
    | none =>
      have hbound : isUnbound doc child = false := by
        rw [isUnbound, hc]
        rfl
      rw [List.filter_cons_of_neg (by simp [hbound]), List.filterMap_cons_none hc]
      exact ih
    | some c =>
      rw [List.filterMap_cons_some hc, List.filterMap_cons]
      by_cases hnone : c.binding?.isNone
      · have hunbound : isUnbound doc child = true := by
          rw [isUnbound, hc]
          exact hnone
        rw [List.filter_cons_of_pos hunbound, if_pos hnone]
        exact .cons ⟨c, hc, rfl⟩ ih
      · have hbound : isUnbound doc child = false := by
          rw [isUnbound, hc]
          exact Bool.eq_false_iff.2 hnone
        rw [List.filter_cons_of_neg (by simp [hbound]), if_neg hnone]
        exact ih

theorem strangers_exact (hdoc : doc.Tree) :
    OneEach (Stranger doc)
      (fun child r => ∃ c, doc.element? child = some c ∧
        r = .plain (.unknownElement c.tag) (tagNameSpan c))
      ((boundElements doc).flatMap fun bound => unknownElements doc bound.1) := by
  have hmem : ∀ {id child : ElementId}, child ∈ (doc.below id).filter (isUnbound doc) ↔
      doc.Child id child ∧ ∃ c, doc.element? child = some c ∧ c.binding? = none := by
    intro id child
    rw [List.mem_filter, hdoc.mem_below_iff, isUnbound, Option.any_eq_true_iff_get]
    refine and_congr_right fun _ => ?_
    cases doc.element? child <;> simp
  refine ⟨(boundElements doc).flatMap fun bound => (doc.below bound.1).filter (isUnbound doc), ?_,
    fun child => ?_, forall₂_flatMap fun bound _ => forall₂_unknownElements bound.1⟩
  · refine nodup_flatMap_boundElements hdoc ?_ ?_
    · exact fun bound _ => ((hdoc.ascending_below bound.1).imp Nat.ne_of_lt).filter _
    · intro bound _ bound' _ child hchild hchild'
      exact hdoc.child_unique (hmem.1 hchild).1 (hmem.1 hchild').1
  · constructor
    · intro hchild
      obtain ⟨⟨id, e, b⟩, hbound, hchild⟩ := List.mem_flatMap.1 hchild
      obtain ⟨hid, he, hb⟩ := mem_boundElements_iff.1 hbound
      obtain ⟨hlisted, c, hc, hnone⟩ := hmem.1 hchild
      exact ⟨id, e, b, c, hdoc.mem_descendants_iff.1 hid, he, hb, hlisted, hc, hnone⟩
    · rintro ⟨id, e, b, c, hreached, he, hb, hlisted, hc, hnone⟩
      have hbound := mem_boundElements_iff.2 ⟨hdoc.mem_descendants_iff.2 hreached, he, hb⟩
      exact List.mem_flatMap.2 ⟨(id, e, b), hbound, hmem.2 ⟨hlisted, c, hc, hnone⟩⟩

end

/-! ## Which reports they are -/

section

variable {ctx : Context} {h : Hierarchy} {doc : Document}

theorem structureOf_eq (s : Schema) (doc : Document) (bound : ElementId × Element × Binding) :
    structureOf s doc bound.1 bound.2.1 bound.2.2 =
      missingOf s bound.2.1 bound.2.2 ++ unknownElements doc bound.1 := rfl

theorem code_missingOf {s : Schema} {e : Element} {b : Binding} :
    ∀ r ∈ missingOf s e b, r.finding.code = "E0002" := by
  unfold missingOf
  cases s.complexTypes[b.type]? with
  | none => exact nofun
  | some t => exact code_missingAttributes

/-- No report of the checks of elements is on conformance. -/
theorem withCode_names {code : String} (hcode : code = "E0002" ∨ code = "E0004") :
    withCode code (inTurn (checkElement ctx doc) h (boundElements doc)).1 = [] := by
  refine withCode_eq_nil fun r hr heq => ?_
  obtain ⟨bound, -, hierarchy, hr⟩ := mem_inTurn hr
  have hstructural := (Finding.isStructural_iff r.finding).2 (heq.symm ▸ hcode)
  rw [isStructural_checkElement hr] at hstructural
  cases hstructural

theorem withCode_document {code : String} (hcode : code = "E0002" ∨ code = "E0004") :
    withCode code (document ctx h doc).1 = (boundElements doc).flatMap fun bound =>
      withCode code (missingOf ctx.schema bound.2.1 bound.2.2) ++
        withCode code (unknownElements doc bound.1) := by
  rw [document, withCode_append, withCode_names hcode, List.append_nil, structureReports, withCode,
    List.filter_flatMap]
  refine List.flatMap_congr fun bound _ => ?_
  rw [structureOf_eq, List.filter_append]
  rfl

theorem withCode_missing : withCode "E0002" (document ctx h doc).1 =
    (boundElements doc).flatMap fun bound => missingOf ctx.schema bound.2.1 bound.2.2 := by
  rw [withCode_document (.inl rfl)]
  refine List.flatMap_congr fun bound _ => ?_
  rw [withCode_eq_self code_missingOf, withCode_eq_nil_of_code code_unknownElements (by decide),
    List.append_nil]

theorem withCode_unknown : withCode "E0004" (document ctx h doc).1 =
    (boundElements doc).flatMap fun bound => unknownElements doc bound.1 := by
  rw [withCode_document (.inr rfl)]
  refine List.flatMap_congr fun bound _ => ?_
  rw [withCode_eq_self code_unknownElements, withCode_eq_nil_of_code code_missingOf (by decide),
    List.nil_append]

end

/-! ## Below unknown elements -/

/-- An element without its children, if the schema does not know it. -/
def cutElement (e : Element) : Element := if e.binding?.isNone then { e with children := [] } else e

/-- A document without all that is below elements that the schema does not know. -/
def cut (doc : Document) : Document := { doc with elements := doc.elements.map cutElement }

/-- What is below an element that the schema does not know is not known either. -/
def UnboundBelow (doc : Document) : Prop :=
  ∀ parent child, doc.Child parent child → isUnbound doc parent → isUnbound doc child

theorem unboundBelow_bind {doc : Document} (h : doc.Tree) (s : Schema) : UnboundBelow (s.bind doc) := by
  intro parent child hchild hunbound
  have hbound := h.bind s
  have hparent := (hbound.child_iff parent child).1 hchild
  obtain ⟨c, hc, hparent⟩ := Option.bind_eq_some_iff.1 hparent
  have hlt := hbound.parent_lt ((hbound.child_iff parent child).1 hchild)
  have hbinding := binding?_of_parent s doc hc hparent hlt
  have hnone : ((s.bind doc).element? parent).bind (·.binding?) = none := by
    unfold isUnbound at hunbound
    cases hp : (s.bind doc).element? parent with
    | none => rfl
    | some p =>
      rw [hp] at hunbound
      simpa using hunbound
  rw [hnone, Option.bind_none] at hbinding
  rw [isUnbound, hc, Option.any_some, hbinding]
  rfl

section

variable {doc : Document}

theorem cutElement_of_bound {e : Element} {b : Binding} (h : e.binding? = some b) : cutElement e = e := by
  rw [cutElement, h]
  rfl

theorem binding?_cutElement (e : Element) : (cutElement e).binding? = e.binding? := by
  unfold cutElement
  split <;> rfl

/-- What is cut off an element changes nothing that is reported about it. -/
theorem exists_cutElement (e : Element) : ∃ children, cutElement e = { e with children := children } := by
  unfold cutElement
  split <;> exact ⟨_, rfl⟩

theorem element?_cut (doc : Document) (id : ElementId) :
    (cut doc).element? id = (doc.element? id).map cutElement := Array.getElem?_map

theorem size_cut (doc : Document) : (cut doc).size = doc.size := Array.size_map

theorem below_cut {id : ElementId} {e : Element} (he : doc.element? id = some e) {b : Binding}
    (hb : e.binding? = some b) : (cut doc).below id = doc.below id := by
  unfold Document.below
  rw [element?_cut, he, Option.map_some, cutElement_of_bound hb, size_cut]

theorem below_cut_unbound {id : ElementId} (h : isUnbound doc id) : (cut doc).below id = [] := by
  unfold isUnbound at h
  unfold Document.below
  rw [element?_cut]
  cases he : doc.element? id with
  | none => rfl
  | some e =>
    rw [he, Option.any_some] at h
    rw [Option.map_some, cutElement, if_pos h]
    rfl

/-- The binding of an element, with its place. -/
def boundElement? (doc : Document) (id : ElementId) : Option (ElementId × Element × Binding) :=
  (doc.element? id).bind fun e => e.binding?.map fun b => (id, e, b)

theorem boundElement?_cut (doc : Document) (id : ElementId) :
    boundElement? (cut doc) id = boundElement? doc id := by
  unfold boundElement?
  rw [element?_cut]
  cases doc.element? id with
  | none => rfl
  | some e =>
    rw [Option.map_some, Option.bind_some, Option.bind_some, binding?_cutElement]
    cases hb : e.binding? with
    | none => rfl
    | some b => rw [cutElement_of_bound hb]

theorem boundElement?_eq_none {id : ElementId} (h : isUnbound doc id) : boundElement? doc id = none := by
  unfold isUnbound at h
  unfold boundElement?
  cases he : doc.element? id with
  | none => rfl
  | some e =>
    rw [he, Option.any_some, Option.isNone_iff_eq_none] at h
    rw [Option.bind_some, h]
    rfl

theorem filterMap_subtree_unbound (hdoc : doc.Nested) (hbelow : UnboundBelow doc) {id : ElementId}
    (h : isUnbound doc id) : (doc.subtree id).filterMap (boundElement? doc) = [] := by
  refine List.filterMap_eq_nil_iff.2 fun j hj => boundElement?_eq_none ?_
  have habove := hdoc.mem_subtree_iff.1 hj
  clear hj
  induction habove with
  | refl => exact h
  | tail _ hchild ih => exact hbelow _ _ hchild ih

/-- A walk over what is left comes to the same elements that the schema knows. -/
theorem filterMap_subtree_cut (hdoc : doc.Nested) (hbelow : UnboundBelow doc) (id : ElementId) :
    ((cut doc).subtree id).filterMap (boundElement? doc) =
      (doc.subtree id).filterMap (boundElement? doc) := by
  induction id using Document.subtree.induct doc with
  | case1 id ih =>
    rw [Document.subtree_eq_flatMap (cut doc), Document.subtree_eq_flatMap doc]
    cases he : doc.element? id with
    | none => simp [Document.below, element?_cut, he]
    | some e =>
      cases hb : e.binding? with
      | none =>
        have hunbound : isUnbound doc id = true := by
          rw [isUnbound, he, Option.any_some, hb]
          rfl
        rw [← Document.subtree_eq_flatMap doc, filterMap_subtree_unbound hdoc hbelow hunbound,
          below_cut_unbound hunbound]
        simp [boundElement?_eq_none hunbound]
      | some b =>
        rw [below_cut he hb, List.filterMap_cons, List.filterMap_cons, List.filterMap_flatMap,
          List.filterMap_flatMap, List.flatMap_congr ih]

theorem boundElements_cut (hdoc : doc.Nested) (hbelow : UnboundBelow doc) :
    boundElements (cut doc) = boundElements doc := by
  have hall : ∀ doc, boundElements doc = doc.descendants.filterMap (boundElement? doc) := fun _ => rfl
  rw [hall, hall, funext (boundElement?_cut doc)]
  unfold Document.descendants
  rw [show (cut doc).root? = doc.root? from rfl]
  cases doc.root? with
  | none => rfl
  | some root => exact filterMap_subtree_cut hdoc hbelow root

theorem unknownElements_cut {id : ElementId} {e : Element} (he : doc.element? id = some e) {b : Binding}
    (hb : e.binding? = some b) : unknownElements (cut doc) id = unknownElements doc id := by
  have helements : (doc.below id).filterMap (cut doc).element? =
      ((doc.below id).filterMap doc.element?).map cutElement := by
    rw [List.map_filterMap]
    exact List.filterMap_congr fun child _ => element?_cut doc child
  unfold unknownElements
  rw [below_cut he hb, helements, List.filterMap_map]
  refine List.filterMap_congr fun child _ => ?_
  obtain ⟨children, hcut⟩ := exists_cutElement child
  rw [Function.comp_apply, hcut]
  rfl

theorem checkElement_cut (ctx : Context) (h : Hierarchy) (bound : ElementId × Element × Binding) :
    checkElement ctx (cut doc) h bound = checkElement ctx doc h bound := by
  have hrelated : ∀ (document : DocumentId) (id : ElementId),
      ((cut doc).element? id).toList.map (fun f : Element =>
          (⟨document, f.tagSpan, "first declared here"⟩ : Related)) =
        (doc.element? id).toList.map fun f : Element => ⟨document, f.tagSpan, "first declared here"⟩ := by
    intro document id
    rw [element?_cut]
    cases doc.element? id with
    | none => rfl
    | some e =>
      obtain ⟨children, hcut⟩ := exists_cutElement e
      rw [Option.map_some, hcut]
      rfl
  have hredeclared : ∀ ref e d, checkRedeclared (cut doc) ref e d = checkRedeclared doc ref e d := by
    intro ref e d
    unfold checkRedeclared
    split
    · rfl
    · exact congrArg (fun related => [(⟨.redeclared d.path, e.tagSpan, related⟩ : Report)])
        (hrelated _ _)
  have hdeclaration : ∀ h ref e id,
      checkDeclaration ctx (cut doc) h ref e id = checkDeclaration ctx doc h ref e id := by
    intro h ref e id
    unfold checkDeclaration
    simp only [hredeclared]
  unfold checkElement
  simp only [hdeclaration]
  rfl

/-- What is below elements that the schema does not know makes no difference to the check. -/
theorem document_cut (hdoc : doc.Nested) (hbelow : UnboundBelow doc) (ctx : Context) (h : Hierarchy) :
    document ctx h (cut doc) = document ctx h doc := by
  have hstructure : structureReports ctx.schema (cut doc) = structureReports ctx.schema doc := by
    unfold structureReports
    rw [boundElements_cut hdoc hbelow]
    refine List.flatMap_congr fun ⟨id, e, b⟩ hbound => ?_
    obtain ⟨-, he, hb⟩ := mem_boundElements_iff.1 hbound
    rw [structureOf_eq, structureOf_eq, unknownElements_cut he hb]
  have hcheck : checkElement ctx (cut doc) = checkElement ctx doc :=
    funext fun h => funext fun bound => checkElement_cut ctx h bound
  unfold document
  rw [hstructure, hcheck, boundElements_cut hdoc hbelow]

end

/-! ## All reports on conformance -/

/-- The check of a document that is bound to a loaded schema reports, at its start tag, every required
attribute that an element of the tree lacks, and, at its tag, every element that the schema does not
know below one that it knows: each once, and no others. It reports nothing else because of what is below
an element that the schema does not know: without all of that the reports are the same. -/
theorem conformance_exact {w : Workspace} (hs : w.context.schema.Loaded) {id : DocumentId}
    {doc : Document} (hdoc : doc.Built)
    (hset : w.context.document? id = some (w.context.schema.bind doc)) :
    let s := w.context.schema
    let bound := s.bind doc
    let reports := (w.check id).1
    OneEach (fun x : ElementId × String => Lacks s bound x.1 x.2)
      (fun x r => ∃ e, bound.element? x.1 = some e ∧ r = .plain (.missingAttribute x.2) e.tagSpan)
      (withCode "E0002" reports) ∧
    OneEach (Stranger bound)
      (fun child r => ∃ c, bound.element? child = some c ∧
        r = .plain (.unknownElement c.tag) (tagNameSpan c))
      (withCode "E0004" reports) ∧
    reports = (document w.context w.hierarchy (cut bound)).1 := by
  intro s bound reports
  obtain ⟨definition, hdefinition⟩ := hs
  have htree : bound.Tree := (Document.tree_of_built hdoc).bind s
  have hreports : reports = (document w.context w.hierarchy bound).1 := by
    rw [show reports = (w.check id).1 from rfl, Workspace.check, hset]
    rfl
  rw [hreports, withCode_missing, withCode_unknown]
  refine ⟨missing_exact (named_of_ofDefinition hdefinition) htree, strangers_exact htree, ?_⟩
  rw [document_cut htree.toNested (unboundBelow_bind (Document.tree_of_built hdoc) s)]

/-! ## A document without a key -/

def textType : SimpleTypeDef := ⟨"Text", .default, .string, true, none, [], [], [], none⟩

def keyedType : ComplexTypeDef :=
  ⟨"Desc", [], ⟨false, false, false⟩, [⟨"key", "Text", true, none, none, none⟩], [], [], none, none⟩

/-- Documents without elements, which must have a key. -/
def keyedDefinition : Definition := ⟨⟨"Desc", "Desc"⟩, [textType], [keyedType], [], []⟩

def keyed : ComplexType :=
  { ComplexType.bare keyedType with
    attributes := ⟨[("key", ⟨"key", 0, true, none, none, none⟩)]⟩
    ownAttributes := ⟨[("key", ())]⟩ }

def keyedSchema : Schema where
  simpleTypes := #[⟨"Text", .default, .string, true, none, .empty, [], [], none⟩]
  complexTypes := #[keyed]
  slots := #[⟨"Desc", .desc, 0, .empty, none, none⟩]
  classes := #[]
  properties := #[]
  frameTypes := #[]
  root := 0

theorem loaded_keyedSchema : keyedSchema.Loaded := by
  refine ⟨keyedDefinition, ?_⟩
  unfold ofDefinition
  simp only [keyedDefinition, List.map_cons, List.map_nil]
  rw [show textType.name = "Text" from rfl, compileComplex_singleton (keyed, #[]) rfl rfl]
  rfl

theorem conformance_exact_keyed :
    let w := after keyedSchema [.setFile "A" "<Desc><Bogus/></Desc>".toList]
    ∃ doc, (w.context.schema.Loaded ∧ doc.Built ∧
        w.context.document? 0 = some (w.context.schema.bind doc)) ∧
      (∃ id, ∀ x : ElementId × String,
        Lacks w.context.schema (w.context.schema.bind doc) x.1 x.2 ↔ x = (id, "key")) ∧
      ∃ id c, (∀ child, Stranger (w.context.schema.bind doc) child ↔ child = id) ∧
        (w.context.schema.bind doc).element? id = some c ∧ c.tag = "Bogus" := by
  intro w
  have hc : ∀ c ∈ [Command.setFile "A" "<Desc><Bogus/></Desc>".toList], c.FromTexts := by
    rintro c (_ | ⟨_, ⟨⟩⟩)
    trivial
  have htextual := textual_after loaded_keyedSchema hc
  have hsome : (w.context.document? 0).isSome = true := by decide +kernel
  obtain ⟨bound, hset⟩ := Option.isSome_iff_exists.1 hsome
  obtain ⟨-, doc, ⟨text, -, hread⟩, rfl⟩ := htextual.documents hset
  have hbuilt := Document.built_ofText hread
  obtain ⟨hmissing, hunknown, -⟩ := conformance_exact htextual.known hbuilt hset
  have hreports : (w.check 0).1 = [.plain (.missingAttribute "key") ⟨0, 6⟩,
      .plain (.unknownElement "Bogus") ⟨7, 12⟩] := by decide +kernel
  rw [hreports] at hmissing hunknown
  obtain ⟨⟨id, name⟩, hlacks, e, -, heq⟩ := OneEach.of_singleton hmissing
  obtain ⟨child, hstranger, c, hc, htag⟩ := OneEach.of_singleton hunknown
  obtain rfl : "key" = name := Finding.missingAttribute.inj (congrArg Report.finding heq)
  have hname : c.tag = "Bogus" := (Finding.unknownElement.inj (congrArg Report.finding htag)).symm
  exact ⟨doc, ⟨htextual.known, hbuilt, hset⟩, ⟨id, hlacks⟩, child, c, hstranger, hc, hname⟩

end Check
end UILayout
