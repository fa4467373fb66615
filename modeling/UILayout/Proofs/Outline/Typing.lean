import UILayout.Proofs.Check.Conformance
import UILayout.Proofs.Check.Wildcards
import UILayout.Proofs.Outline.Links

/-!
# UILayout.Proofs.Outline.Typing

What the value of an attribute is read as where its definition is looked for, beside what it is checked
as. A check hands out the wildcards of a type one after the other. A definition is looked for in a single
attribute, so that there every attribute without a definition has the first wildcard.

* `readsAsChecked_iff`: when the two readings of all attributes of an element are the same.
* `definitionAt_reads`: the reading decides where a value leads.
* `wildcard_read_twice`: a wildcard that one attribute uses up, and two others are read by.
-/

namespace UILayout

open Schema Markup Namespace Check

namespace Outline

/-- The simple type that the value of an attribute is read by. -/
def readType? (t : ComplexType) (a : Attribute) : Option SimpleTypeId :=
  ((t.attributes.get? a.name).map (·.type)).or (t.wildcards.head?.map (·.value))

/-- What values of a simple type are read as; without a type, as nothing special. -/
def readAs (s : Schema) (type? : Option SimpleTypeId) : Builtin :=
  ((type?.bind (s.simpleTypes[·]?)).map (·.builtin)).getD .unknown

/-- An attribute is read by the type that its value is checked against, and one whose value is not checked
is no link. -/
structure ReadsAsChecked (ctx : Context) (t : ComplexType) (typed : Attribute × Typing) : Prop where
  type : readType? t typed.1 = typed.2.value?
  untyped : typed.2.value? = none →
    Link.ofValue? ctx.names (readAs ctx.schema (readType? t typed.1)) typed.1.value = none

section

variable {ctx : Context} {s : Schema} {t : ComplexType} {a : Attribute}

theorem builtinOf_eq {type : ComplexTypeId} (ht : s.complexTypes[type]? = some t) (a : Attribute) :
    builtinOf s type a.name = readAs s (readType? t a) := by
  unfold builtinOf readAs readType?
  rw [ht]

theorem readType?_of_undefined (ha : undefined t a = true) :
    readType? t a = t.wildcards.head?.map (·.value) := by
  rw [readType?, Option.isNone_iff_eq_none.1 ha]
  rfl

/-- A value of no special type is a link when it is a bind. -/
theorem ofValue?_unknown_eq_none_iff (names : Namespace) (value : String) :
    Link.ofValue? names .unknown value = none ↔ ValueForm.ofText value.toList ≠ .bind := by
  unfold Link.ofValue? Reference.ofValue?
  cases ValueForm.ofText value.toList with
  | bind => simp
  | plain => simp
  | _ =>
    dsimp only
    split <;> simp [Builtin.isSelector]

/-! ## Attributes, by what the check makes of them -/

theorem readsAsChecked_declared {defined : AttributeType} (ha : t.attributes.get? a.name = some defined) :
    ReadsAsChecked ctx t (a, .declared defined.type) := by
  refine ⟨?_, nofun⟩
  rw [readType?, ha]
  rfl

theorem readsAsChecked_wildcard_iff (ha : undefined t a = true) (rule : Wildcard) :
    ReadsAsChecked ctx t (a, .wildcard rule) ↔
      t.wildcards.head?.map (·.value) = some rule.value := by
  rw [← readType?_of_undefined ha]
  exact ⟨fun h => h.type, fun h => ⟨h, nofun⟩⟩

theorem readsAsChecked_unknown_iff (ha : undefined t a = true) :
    ReadsAsChecked ctx t (a, .unknown) ↔
      t.wildcards = [] ∧ ValueForm.ofText a.value.toList ≠ .bind := by
  have htype : readType? t a = none ↔ t.wildcards = [] := by
    rw [readType?_of_undefined ha, Option.map_eq_none_iff, List.head?_eq_none_iff]
  constructor
  · intro h
    have hlink := h.untyped rfl
    rw [h.type] at hlink
    exact ⟨htype.1 h.type, (ofValue?_unknown_eq_none_iff _ _).1 hlink⟩
  · rintro ⟨hnil, hvalue⟩
    refine ⟨htype.2 hnil, fun _ => ?_⟩
    rw [htype.2 hnil]
    exact (ofValue?_unknown_eq_none_iff _ _).2 hvalue

/-- Only attributes without a definition may be read as something else than what they are checked as. -/
theorem forall_readsAsChecked_iff_undefined (ctx : Context) (t : ComplexType) (as : List Attribute) :
    (∀ typed ∈ (typeAttributes t t.wildcards as).1, ReadsAsChecked ctx t typed) ↔
      ∀ typed ∈ (typeAttributes t t.wildcards as).1.filter (fun typed => undefined t typed.1),
        ReadsAsChecked ctx t typed := by
  refine ⟨fun h typed htyped => h typed (List.mem_of_mem_filter htyped), fun h typed htyped => ?_⟩
  cases hdefined : t.attributes.get? typed.1.name with
  | none => exact h typed (List.mem_filter.2 ⟨htyped, undefined_of_get?_none hdefined⟩)
  | some defined =>
    have hread : ReadsAsChecked ctx t (typed.1, .declared defined.type) :=
      readsAsChecked_declared hdefined
    rwa [← declared_of_mem_typeAttributes htyped hdefined] at hread

/-- The attributes that are left over lead nowhere when there are none, or when there are no wildcards that
they could be read by, and no binds. -/
theorem forall_readsAsChecked_unknown_iff {extra : List Attribute}
    (hextra : ∀ a ∈ extra, undefined t a = true) :
    (∀ a ∈ extra.drop t.wildcards.length, ReadsAsChecked ctx t (a, .unknown)) ↔
      extra.length ≤ t.wildcards.length ∨
        t.wildcards = [] ∧ ∀ a ∈ extra, ValueForm.ofText a.value.toList ≠ .bind := by
  have hall : (∀ a ∈ extra.drop t.wildcards.length, ReadsAsChecked ctx t (a, .unknown)) ↔
      ∀ a ∈ extra.drop t.wildcards.length,
        t.wildcards = [] ∧ ValueForm.ofText a.value.toList ≠ .bind :=
    forall₂_congr fun a h => readsAsChecked_unknown_iff (hextra a (List.mem_of_mem_drop h))
  rw [hall, ← List.drop_eq_nil_iff]
  constructor
  · intro h
    by_cases hnil : extra.drop t.wildcards.length = []
    · exact .inl hnil
    · obtain ⟨a, ha⟩ := List.exists_mem_of_ne_nil _ hnil
      have hnone := (h a ha).1
      rw [hnone] at h
      exact .inr ⟨hnone, fun a ha => (h a ha).2⟩
  · rintro (hnil | ⟨hnone, hvalues⟩) a ha
    · rw [hnil] at ha
      cases ha
    · exact ⟨hnone, hvalues a (List.mem_of_mem_drop ha)⟩

/-- The attributes of an element are read by the types that they are checked against, and lead nowhere if
they are not checked, just when all wildcards that are used have the type of the first one for values, and
no attribute is left over; unless there are no wildcards, and no attribute that is left over is a bind. -/
theorem readsAsChecked_iff (ctx : Context) (t : ComplexType) (as : List Attribute) :
    let extra := as.filter (undefined t)
    (∀ typed ∈ (typeAttributes t t.wildcards as).1, ReadsAsChecked ctx t typed) ↔
      (∀ used ∈ extra.zip t.wildcards, t.wildcards.head?.map (·.value) = some used.2.value) ∧
        (extra.length ≤ t.wildcards.length ∨
          t.wildcards = [] ∧ ∀ a ∈ extra, ValueForm.ofText a.value.toList ≠ .bind) := by
  intro extra
  have hextra : ∀ a ∈ extra, undefined t a = true := fun a ha => (List.mem_filter.1 ha).2
  have hused : (∀ used ∈ extra.zip t.wildcards, ReadsAsChecked ctx t (used.1, .wildcard used.2)) ↔
      ∀ used ∈ extra.zip t.wildcards, t.wildcards.head?.map (·.value) = some used.2.value :=
    forall₂_congr fun used h =>
      readsAsChecked_wildcard_iff (hextra _ (List.of_mem_zip h).1) used.2
  rw [forall_readsAsChecked_iff_undefined, filter_typeAttributes, List.forall_mem_append,
    List.forall_mem_map, List.forall_mem_map, hused, forall_readsAsChecked_unknown_iff hextra]

end

/-- Where the value of an attribute leads is decided by the type that it is read by: to the declarations of
the descs of its link, and to a constant at most if it is no link. All attributes of an element are read by
the types that they are checked against, and lead nowhere if they are not checked, just when all wildcards
that are used have the type of the first one for values, and no attribute is left over; unless there are no
wildcards, and no attribute that is left over is a bind. -/
theorem definitionAt_reads (s : Schema) (commands : List Workspace.Command) {id : DocumentId}
    {doc : Document} (hdoc : (Workspace.after s commands).context.document? id = some doc)
    {element : ElementId} {e : Element} {b : Binding} {t : ComplexType}
    (ht : (Workspace.after s commands).context.schema.complexTypes[b.type]? = some t) :
    let w := Workspace.after s commands
    let ctx := w.context
    let extra := e.attributes.filter (undefined t)
    (∀ offset a position, ValueAt doc offset element e b a position →
      (w.definitionAt id offset).1 =
        match Link.ofValue? ctx.names (readAs ctx.schema (readType? t a)) a.value with
        | some link =>
          (link.descs ctx w.hierarchy (ctx.scopeOf (doc.ref element)) position).flatMap (descTargets ctx)
        | none => constantsOf ctx a.value) ∧
    ((∀ typed ∈ (typeAttributes t t.wildcards e.attributes).1, ReadsAsChecked ctx t typed) ↔
      (∀ used ∈ extra.zip t.wildcards, t.wildcards.head?.map (·.value) = some used.2.value) ∧
        (extra.length ≤ t.wildcards.length ∨
          t.wildcards = [] ∧ ∀ a ∈ extra, ValueForm.ofText a.value.toList ≠ .bind)) := by
  intro w ctx extra
  refine ⟨fun offset a position hat => ?_, readsAsChecked_iff ctx t e.attributes⟩
  rw [Workspace.definitionAt_eq hdoc, definitionAt_eq hat, builtinOf_eq ht]
  exact valueTargets_eq ctx w.hierarchy _ _ _ _

/-! ## Two wildcards -/

def templateType : SimpleTypeDef := ⟨"Template", .default, .descTemplateName, true, none, [], [], [], none⟩

/-- Of the attributes without a definition, the first is a template, and the second is text. -/
def wildType : ComplexTypeDef :=
  ⟨"Desc", [], ⟨false, false, false⟩, [⟨"name", "Text", false, none, none, none⟩],
    [⟨"Text", "Template"⟩, ⟨"Text", "Text"⟩], [⟨"Frame", .frame, "Desc", .empty, none, none⟩], none, none⟩

def wildDefinition : Definition := ⟨⟨"Desc", "Desc"⟩, [templateType, textType], [wildType], [], []⟩

def wild : ComplexType :=
  { ComplexType.bare wildType with
    attributes := ⟨[("name", ⟨"name", 1, false, none, none, none⟩)]⟩
    wildcards := [⟨1, 0⟩, ⟨1, 1⟩]
    slots := ⟨[("Frame", 0)]⟩
    ownAttributes := ⟨[("name", ())]⟩
    ownSlots := ⟨[("Frame", ())]⟩ }

def wildSchema : Schema where
  simpleTypes := #[⟨"Template", .default, .descTemplateName, true, none, .empty, [], [], none⟩,
    ⟨"Text", .default, .string, true, none, .empty, [], [], none⟩]
  complexTypes := #[wild]
  slots := #[⟨"Frame", .frame, 0, .empty, none, none⟩, ⟨"Desc", .desc, 0, .empty, none, none⟩]
  classes := #[]
  properties := #[]
  frameTypes := #[]
  root := 1

theorem loaded_wildSchema : wildSchema.Loaded := by
  refine ⟨wildDefinition, ?_⟩
  unfold ofDefinition
  simp only [wildDefinition, List.map_cons, List.map_nil]
  rw [compileComplex_singleton (wild, #[⟨"Frame", .frame, 0, .empty, none, none⟩]) rfl rfl]
  rfl

/-- A frame `T/Dialog`, and a document with some attributes that name it. -/
def dialogs (attributes : String) : List Workspace.Command :=
  [.setFile "T" "<Desc x=\"T/Dialog\" y=\"\"><Frame name=\"Dialog\" x=\"T/Dialog\" y=\"\"/></Desc>".toList,
    .setFile "A" ("<Desc" ++ attributes ++ "/>").toList]

theorem schema_dialogs (attributes : String) :
    (Workspace.after wildSchema (dialogs attributes)).context.schema = wildSchema :=
  (Workspace.schema_setFile _ _ _).trans (Workspace.schema_setFile _ _ _)

/-- A single attribute that uses a wildcard is read by it. -/
theorem definitionAt_reads_one :
    let w := Workspace.after wildSchema (dialogs " x=\"T/Dialog\"")
    ∃ doc element e b a position, w.context.document? 1 = some doc ∧
      w.context.schema.complexTypes[b.type]? = some wild ∧ ValueAt doc 11 element e b a position ∧
      (w.definitionAt 1 11).1 =
        (Link.descs w.context w.hierarchy (w.context.scopeOf (doc.ref element)) position
          (.template "T/Dialog")).flatMap (descTargets w.context) ∧
      ∀ typed ∈ (typeAttributes wild wild.wildcards e.attributes).1,
        ReadsAsChecked w.context wild typed := by
  intro w
  have hcomputed : ((w.context.document? 1).bind (valueAt? · 11)).map (fun v =>
      let extra := v.2.1.attributes.filter (undefined wild)
      (v.2.2.1.type, v.2.2.2.1.value, extra.length, (extra.zip wild.wildcards).map (·.2),
        Link.ofValue? w.context.names (readAs wildSchema (readType? wild v.2.2.2.1)) v.2.2.2.1.value)) =
      some (0, "T/Dialog", 1, [⟨1, 0⟩], some (.template "T/Dialog")) := by decide +kernel
  obtain ⟨doc, element, e, b, a, position, hdoc, hat, heq⟩ := exists_valueAt hcomputed
  simp only [Prod.mk.injEq] at heq
  obtain ⟨htype, htext, hlength, hused, hlink⟩ := heq
  have hschema := schema_dialogs " x=\"T/Dialog\""
  have ht : w.context.schema.complexTypes[b.type]? = some wild := by
    rw [htype, hschema]
    rfl
  obtain ⟨hreads, hiff⟩ := definitionAt_reads wildSchema (dialogs " x=\"T/Dialog\"") hdoc ht
  have htargets := hreads 11 a position hat
  rw [hschema, hlink] at htargets
  refine ⟨doc, element, e, b, a, position, hdoc, ht, hat, htargets, hiff.2 ⟨?_, .inl ?_⟩⟩
  · intro used husedIn
    have hrule := List.mem_map_of_mem (f := Prod.snd) husedIn
    rw [hused] at hrule
    rw [List.mem_singleton.1 hrule]
    rfl
  · rw [hlength]
    decide

/-- The first wildcard is for `x`. The next attribute is checked as text, and the last one is not checked,
but both are read by the first wildcard and lead to the frame. -/
theorem wildcard_read_twice :
    let w := Workspace.after wildSchema (dialogs " x=\"T/Dialog\" y=\"T/Dialog\" z=\"T/Dialog\"")
    wildSchema.Loaded ∧ ∃ doc e b, w.context.document? 1 = some doc ∧ doc.element? 0 = some e ∧
      e.binding? = some b ∧ w.context.schema.complexTypes[b.type]? = some wild ∧
      (typeAttributes wild wild.wildcards e.attributes).1.map (fun typed =>
          (typed.1.name, typed.2.value?, readType? wild typed.1)) =
        [("x", some 0, some 0), ("y", some 1, some 0), ("z", none, some 0)] ∧
      ∀ offset ∈ [11, 24, 37], (w.definitionAt 1 offset).1.map (·.name) = ["T/Dialog"] := by
  intro w
  have hcomputed : ((w.context.document? 1).bind (·.element? 0)).map (fun e =>
      (e.binding?.map (·.type), (typeAttributes wild wild.wildcards e.attributes).1.map fun typed =>
        (typed.1.name, typed.2.value?, readType? wild typed.1))) =
      some (some 0, [("x", some 0, some 0), ("y", some 1, some 0), ("z", none, some 0)]) := by
    decide +kernel
  obtain ⟨e, hvalue, heq⟩ := Option.map_eq_some_iff.1 hcomputed
  obtain ⟨doc, hdoc, he⟩ := Option.bind_eq_some_iff.1 hvalue
  obtain ⟨hbound, htyped⟩ := Prod.mk.inj heq
  obtain ⟨b, hb, htype⟩ := Option.map_eq_some_iff.1 hbound
  refine ⟨loaded_wildSchema, doc, e, b, hdoc, he, hb, ?_, htyped, by decide +kernel⟩
  rw [htype, schema_dialogs]
  rfl

end Outline
end UILayout
