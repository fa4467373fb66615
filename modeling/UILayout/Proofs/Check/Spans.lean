import UILayout.Check.Document
import UILayout.Proofs.Markup.Inside
import UILayout.Proofs.Schema.Bound
import UILayout.Proofs.Selector.Spans

/-!
# UILayout.Proofs.Check.Spans

Where a report stands: at a start tag of the document, at an attribute of one of its elements, or at a
part of the value of such an attribute. Every check answers with such reports only, whatever the
namespace and the hierarchy hold, so their spans are those that reading the document has found.

* `Report.OnValue`, `Report.On`: the places of a report on a value, and on an attribute;
  `Report.Stands`: those of any report.
* `document_stands`: every report on a document stands in one of them.
* `reports_ordered`, `reports_inside`: no span is inverted, and where they end.
-/

namespace UILayout
namespace Check

open Text Schema Markup Namespace

/-- The name of the attribute that a finding is about, when it stands at that name. -/
def Finding.attributeName? : Finding → Option String
  | .unknownAttribute name | .unknownPropertyName name | .invalidAttributeName name _ => some name
  | _ => none

/-- Does a finding stand at a part of the value of an attribute? -/
def Finding.isPart : Finding → Bool
  | .unresolvedPath _ | .selector _ => true
  | _ => false

/-- Is a finding about the value of an attribute, and not about its name or its element? -/
def Finding.isOfValue : Finding → Bool
  | .invalidValue .. | .undeclaredConstant _ | .unknownBoundProperty _ | .emptyPath
  | .templateNotFound _ | .templateIsFile | .unresolvedPath _ | .wrongClass .. | .selector _ => true
  | _ => false

/-- Is a finding about what an element declares, and not about one of its attributes? -/
def Finding.isDeclaration : Finding → Bool
  | .fileNotFound _ | .notInFile .. | .redeclared _ => true
  | _ => false

/-- Where a finding stands is known for sure. That of a name is not when form feeds stand before the
name, and those of names and of parts of values are not in a text with a byte order mark. -/
structure Finding.Sure (f : Finding) (text : List Char) : Prop where
  feed : ∀ name, f.attributeName? = some name → name.toList.head? ≠ some Locator.feed
  mark : Reader.withoutMark text = text ∨ f.attributeName? = none ∧ f.isPart = false

/-- The places where a report on the elements of a document can stand. -/
inductive Report.Stands (doc : Document) : Report → Prop where
  | tag {id : ElementId} {e : Element} (he : doc.element? id = some e) (finding : Finding) :
      Stands doc (.plain finding e.tagSpan)
  | tagName {id : ElementId} {e : Element} (he : doc.element? id = some e) (finding : Finding) :
      Stands doc (.plain finding (tagNameSpan e))
  /-- The second place is the start tag of an element too. -/
  | redeclared {id : ElementId} {e : Element} (he : doc.element? id = some e) (finding : Finding)
      {related : List Related} (h : ∀ r ∈ related, r.document = doc.id ∧
        ∃ id e, doc.element? id = some e ∧ r.span = e.tagSpan) :
      Stands doc ⟨finding, e.tagSpan, related⟩
  | name {id : ElementId} {e : Element} {a : Attribute} (he : doc.element? id = some e)
      (ha : a ∈ e.attributes) {finding : Finding} (hname : finding.attributeName? = some a.name) :
      Stands doc (.plain finding a.nameSpan)
  | value {id : ElementId} {e : Element} {a : Attribute} (he : doc.element? id = some e)
      (ha : a ∈ e.attributes) (finding : Finding) : Stands doc (.plain finding a.valueSpan)
  | source {id : ElementId} {e : Element} {a : Attribute} (he : doc.element? id = some e)
      (ha : a ∈ e.attributes) {s : Span} (hs : s.Inside a.value.toList) {finding : Finding}
      (hpart : finding.isPart = true) : Stands doc (.plain finding (a.sourceSpan s))

/-- The places where a report of the check of a value can stand. -/
inductive Report.OnValue (a : Attribute) : Report → Prop where
  | value {finding : Finding} (hvalue : finding.isOfValue = true) :
      OnValue a (.plain finding a.valueSpan)
  | source {s : Span} (hs : s.Inside a.value.toList) {finding : Finding}
      (hpart : finding.isPart = true) : OnValue a (.plain finding (a.sourceSpan s))

/-- The places where a report of the check of an attribute can stand. -/
inductive Report.On (a : Attribute) : Report → Prop where
  | name {finding : Finding} (hname : finding.attributeName? = some a.name) :
      On a (.plain finding a.nameSpan)
  | ofValue {r : Report} (h : r.OnValue a) : On a r

/-- All of some reports stand in a document. -/
def AllStand (doc : Document) (reports : List Report) : Prop := ∀ r ∈ reports, r.Stands doc

section

variable {doc : Document} {reports more : List Report} {r : Report}

theorem AllStand.nil : AllStand doc [] := nofun

theorem AllStand.single (h : r.Stands doc) : AllStand doc [r] := by
  rintro r (_ | ⟨_, ⟨⟩⟩)
  exact h

theorem AllStand.append (h : AllStand doc reports) (hmore : AllStand doc more) :
    AllStand doc (reports ++ more) := fun r hr => (List.mem_append.1 hr).elim (h r) (hmore r)

/-- A report of checks that are made in turn is a report of one of them. -/
theorem mem_inTurn {α : Type} {check : Hierarchy → α → Reports} {items : List α}
    {hierarchy : Hierarchy} (hr : r ∈ (inTurn check hierarchy items).1) :
    ∃ a ∈ items, ∃ hierarchy, r ∈ (check hierarchy a).1 := by
  induction items generalizing hierarchy with
  | nil => cases hr
  | cons a rest ih =>
    rcases List.mem_append.1 hr with hfirst | hmore
    · exact ⟨a, List.mem_cons_self, hierarchy, hfirst⟩
    · obtain ⟨b, hb, hierarchy, hr⟩ := ih hmore
      exact ⟨b, List.mem_cons_of_mem a hb, hierarchy, hr⟩

end

/-! ## Attributes -/

section

variable {a : Attribute}

theorem Report.OnValue.stands {r : Report} (h : r.OnValue a) {doc : Document} {id : ElementId}
    {e : Element} (he : doc.element? id = some e) (ha : a ∈ e.attributes) : r.Stands doc := by
  cases h with
  | value hvalue => exact .value he ha _
  | source hs hpart => exact .source he ha hs hpart

theorem Report.OnValue.isOfValue {r : Report} (h : r.OnValue a) : r.finding.isOfValue = true := by
  cases h with
  | value hvalue => exact hvalue
  | @source s hs finding hpart => cases finding <;> first | rfl | cases hpart

theorem Report.On.stands {r : Report} (h : r.On a) {doc : Document} {id : ElementId} {e : Element}
    (he : doc.element? id = some e) (ha : a ∈ e.attributes) : r.Stands doc := by
  cases h with
  | name hname => exact .name he ha hname
  | ofValue h => exact h.stands he ha

theorem Finding.isDeclaration_of_isOfValue {finding : Finding} (h : finding.isOfValue = true) :
    finding.isDeclaration = false := by
  cases finding <;> first | rfl | cases h

/-- The check of an attribute has nothing to say about what the element declares. -/
theorem Report.On.isDeclaration {r : Report} (h : r.On a) : r.finding.isDeclaration = false := by
  cases h with
  | @name finding hname => cases finding <;> first | rfl | cases hname
  | ofValue h => exact Finding.isDeclaration_of_isOfValue h.isOfValue

theorem selectorReports_onValue {problems : List Selector.Problem}
    (h : ∀ problem ∈ problems, problem.span.Inside a.value.toList) :
    ∀ r ∈ selectorReports a problems, r.OnValue a := by
  intro r hr
  obtain ⟨problem, hproblem, rfl⟩ := List.mem_map.1 hr
  exact .source (h problem hproblem) rfl

/-- The path that is read is that of the value, and is not empty. -/
theorem readPath_ok {path : Selector.Path} (h : readPath a = .ok path) :
    path = .ofText a.value.toList ∧ path.isEmpty = false := by
  unfold readPath at h
  dsimp only at h
  split at h
  · cases h
  · split at h
    · cases h
    · rename_i hempty
      cases h
      exact ⟨rfl, by simpa using hempty⟩

theorem readPath_onValue {reports : List Report} (h : readPath a = .error reports) :
    ∀ r ∈ reports, r.OnValue a := by
  unfold readPath at h
  dsimp only at h
  split at h
  · cases h
    exact selectorReports_onValue (Selector.Path.inside_ofText a.value.toList).problems
  · split at h
    · cases h
      exact List.forall_mem_singleton.2 (.value rfl)
    · cases h

theorem checkTemplate_onValue (ctx : Context) : ∀ r ∈ checkTemplate ctx a, r.OnValue a := by
  unfold checkTemplate
  split
  · rename_i reports hread
    exact readPath_onValue hread
  · split
    · exact List.forall_mem_singleton.2 (.value rfl)
    · split
      · exact List.forall_mem_singleton.2 (.value rfl)
      · exact List.forall_mem_nil _

theorem checkClass_onValue (ctx : Context) (target : DescId) (frameClass : String) :
    ∀ r ∈ checkClass ctx a target frameClass, r.OnValue a := by
  unfold checkClass
  split
  · split
    · exact List.forall_mem_nil _
    · exact List.forall_mem_singleton.2 (.value rfl)
  · exact List.forall_mem_singleton.2 (.value rfl)

theorem checkReference_onValue (ctx : Context) (h : Hierarchy) (t : SimpleType) (scope : DescId) :
    ∀ r ∈ (checkReference ctx h a t scope).1, r.OnValue a := by
  unfold checkReference
  split
  · rename_i reports hread
    exact readPath_onValue hread
  · rename_i path hread
    obtain ⟨rfl, -⟩ := readPath_ok hread
    have hinside := Selector.Path.inside_ofText a.value.toList
    dsimp only
    split
    · split
      · exact List.forall_mem_nil _
      · refine List.forall_mem_singleton.2 (.source ?_ rfl)
        cases hstep : (Selector.Path.ofText a.value.toList).fragments[
            (h.resolve ctx scope (.ofText a.value.toList)).1.items.length]? with
        | none => exact hinside.span
        | some f => exact (hinside.fragments f (List.mem_of_getElem? hstep)).span
    · split
      · exact List.forall_mem_nil _
      · exact checkClass_onValue ctx _ _

theorem checkPlain_onValue (ctx : Context) (scope : DescId) (h : Hierarchy) (type : SimpleTypeId) :
    ∀ r ∈ (checkPlain ctx scope h a type).1, r.OnValue a := by
  unfold checkPlain
  split
  · exact List.forall_mem_singleton.2 (.value rfl)
  · split
    · exact List.forall_mem_nil _
    · split
      · exact checkTemplate_onValue ctx
      · exact checkReference_onValue ctx h _ scope
      · exact List.forall_mem_nil _

theorem checkBind_onValue (ctx : Context) : ∀ r ∈ checkBind ctx a, r.OnValue a := by
  unfold checkBind
  dsimp only
  split
  · exact selectorReports_onValue fun problem hproblem =>
      Selector.Bind.inside_ofText _ _ (Selector.Bind.span_mem_spans hproblem)
  · split
    · exact List.forall_mem_nil _
    · split
      · exact List.forall_mem_singleton.2 (.value rfl)
      · exact List.forall_mem_nil _

theorem checkConstant_onValue (ctx : Context) (scope : DescId) (h : Hierarchy) (type : SimpleTypeId)
    (ref : Reference) : ∀ r ∈ (checkConstant ctx scope h a type ref).1, r.OnValue a := by
  unfold checkConstant
  dsimp only
  split
  · exact List.forall_mem_nil _
  · split
    · exact List.forall_mem_singleton.2 (.value rfl)
    · split
      · exact checkPlain_onValue ctx scope h type
      · exact List.forall_mem_singleton.2 (.value rfl)

theorem checkValue_onValue (ctx : Context) (scope : DescId) (h : Hierarchy) (type : SimpleTypeId) :
    ∀ r ∈ (checkValue ctx scope h a type).1, r.OnValue a := by
  unfold checkValue
  split
  · exact checkConstant_onValue ctx scope h type _
  · split
    · exact checkBind_onValue ctx
    · exact checkPlain_onValue ctx scope h type

theorem wildcardName_on (s : Schema) (key : SimpleTypeId) : ∀ r ∈ wildcardName s a key, r.On a := by
  unfold wildcardName
  split
  · split
    · exact List.forall_mem_singleton.2 (.name rfl)
    · exact List.forall_mem_nil _
  · split
    · exact List.forall_mem_nil _
    · exact List.forall_mem_singleton.2 (.name rfl)

theorem checkAttribute_on (ctx : Context) (allowExtra : Bool) (scope : DescId) (h : Hierarchy)
    (typing : Typing) : ∀ r ∈ (checkAttribute ctx allowExtra scope h (a, typing)).1, r.On a := by
  have hvalue : ∀ type, ∀ r ∈ (checkValue ctx scope h a type).1, r.On a := fun type r hr =>
    .ofValue (checkValue_onValue ctx scope h type r hr)
  unfold checkAttribute
  dsimp only
  split
  · exact hvalue _
  · exact List.forall_mem_append.2 ⟨wildcardName_on _ _, hvalue _⟩
  · split
    · exact List.forall_mem_nil _
    · exact List.forall_mem_singleton.2 (.name rfl)

end

/-! ## Elements -/

theorem map_fst_typeAttributes (t : ComplexType) (unused : List Wildcard) (as : List Attribute) :
    (typeAttributes t unused as).1.map (·.1) = as := by
  induction as generalizing unused with
  | nil => rfl
  | cons a rest ih =>
    cases h : t.attributes.get? a.name with
    | some defined => simp [typeAttributes, h, ih]
    | none => cases unused <;> simp [typeAttributes, h, ih]

/-- The check of the attributes of an element reports on one of them, or that a wildcard is not used. -/
theorem mem_checkAttributes {ctx : Context} {scope : DescId} {h : Hierarchy} {e : Element}
    {t : ComplexType} {r : Report} (hr : r ∈ (checkAttributes ctx scope h e t).1) :
    (∃ a ∈ e.attributes, r.On a) ∨ ∃ key, r = .plain (.unusedWildcard key) e.tagSpan := by
  rcases List.mem_append.1 hr with hr | hr
  · obtain ⟨typed, htyped, hierarchy, hr⟩ := mem_inTurn hr
    have ha := List.mem_map_of_mem (f := (·.1)) htyped
    rw [map_fst_typeAttributes] at ha
    exact .inl ⟨typed.1, ha, checkAttribute_on ctx _ scope hierarchy typed.2 r hr⟩
  · obtain ⟨rule, -, rfl⟩ := List.mem_map.1 hr
    exact .inr ⟨_, rfl⟩

theorem isDeclaration_checkAttributes {ctx : Context} {scope : DescId} {h : Hierarchy} {e : Element}
    {t : ComplexType} {r : Report} (hr : r ∈ (checkAttributes ctx scope h e t).1) :
    r.finding.isDeclaration = false := by
  rcases mem_checkAttributes hr with ⟨a, -, hon⟩ | ⟨key, rfl⟩
  · exact hon.isDeclaration
  · rfl

section

variable {doc : Document} {id : ElementId} {e : Element} (he : doc.element? id = some e)

include he

theorem checkAttributes_stands (ctx : Context) (scope : DescId) (h : Hierarchy) (t : ComplexType) :
    AllStand doc (checkAttributes ctx scope h e t).1 := by
  intro r hr
  rcases mem_checkAttributes hr with ⟨a, ha, hon⟩ | ⟨key, rfl⟩
  · exact hon.stands he ha
  · exact .tag he _

theorem checkFile_stands (ctx : Context) (h : Hierarchy) (desc : DescId) (name : String)
    {file : Attribute} (hfile : file ∈ e.attributes) :
    AllStand doc (checkFile ctx h e desc name file).1 := by
  unfold checkFile
  split
  · exact .single (.value he hfile _)
  · split
    · exact .nil
    · refine .single ?_
      cases hname : e.attribute? "name" with
      | none => exact .tag he _
      | some a => exact .value he (List.mem_of_find?_eq_some hname) _

theorem checkRedeclared_stands (element : ElementId) (d : Desc) :
    AllStand doc (checkRedeclared doc (doc.ref element) e d) := by
  unfold checkRedeclared
  split
  · exact .nil
  · refine .single (.redeclared he _ fun r hr => ?_)
    obtain ⟨f, hf, rfl⟩ := List.mem_map.1 hr
    exact ⟨rfl, _, f, Option.mem_toList.1 hf, rfl⟩

theorem checkDeclaration_stands (ctx : Context) (h : Hierarchy) (element : ElementId) (desc : DescId) :
    AllStand doc (checkDeclaration ctx doc h (doc.ref element) e desc).1 := by
  unfold checkDeclaration
  split
  · exact .nil
  · split
    · rename_i file hfile
      exact checkFile_stands he ctx h desc _ (List.mem_of_find?_eq_some hfile)
    · exact checkRedeclared_stands he element _

theorem checkElement_stands (ctx : Context) (h : Hierarchy) (b : Binding) :
    AllStand doc (checkElement ctx doc h (id, e, b)).1 := by
  unfold checkElement
  dsimp only
  generalize (if (ctx.schema.slotKind b.slot).declares = true then
    ctx.names.declared? (doc.ref id) else none) = declared?
  cases declared? with
  | none =>
    split
    · exact .nil
    · exact checkAttributes_stands he ctx _ _ _
  | some desc =>
    have hdeclaration := checkDeclaration_stands he ctx h id desc
    split
    · exact hdeclaration
    · exact hdeclaration.append (checkAttributes_stands he ctx _ _ _)

theorem structureOf_stands (s : Schema) (b : Binding) : AllStand doc (structureOf s doc id e b) := by
  unfold structureOf
  refine .append ?_ ?_
  · cases s.complexTypes[b.type]? with
    | none => exact .nil
    | some t =>
      intro r hr
      obtain ⟨defined, -, rfl⟩ := List.mem_map.1 hr
      exact .tag he _
  · intro r hr
    obtain ⟨child, hchild, hr⟩ := List.mem_filterMap.1 hr
    obtain ⟨element, -, helement⟩ := List.mem_filterMap.1 hchild
    split at hr
    · cases hr
      exact .tagName helement _
    · cases hr

end

theorem element?_of_mem_boundElements {doc : Document} {bound : ElementId × Element × Binding}
    (h : bound ∈ boundElements doc) :
    doc.element? bound.1 = some bound.2.1 ∧ bound.2.1.binding? = some bound.2.2 := by
  obtain ⟨id, -, hid⟩ := List.mem_filterMap.1 h
  obtain ⟨e, he, hbinding⟩ := Option.bind_eq_some_iff.1 hid
  obtain ⟨b, hb, rfl⟩ := Option.map_eq_some_iff.1 hbinding
  exact ⟨he, hb⟩

/-- Every report on a document stands at one of its elements. -/
theorem document_stands (ctx : Context) (h : Hierarchy) (doc : Document) :
    AllStand doc (document ctx h doc).1 := by
  unfold document
  refine .append ?_ ?_
  · intro r hr
    obtain ⟨bound, hbound, hr⟩ := List.mem_flatMap.1 hr
    exact structureOf_stands (element?_of_mem_boundElements hbound).1 ctx.schema bound.2.2 r hr
  · intro r hr
    obtain ⟨bound, hbound, hierarchy, hr⟩ := mem_inTurn hr
    exact checkElement_stands (element?_of_mem_boundElements hbound).1 ctx hierarchy bound.2.2 r hr

/-! ## Where the places are -/

section

variable {doc : Document} {r : Report}

theorem Report.Stands.ordered (h : r.Stands doc)
    (hordered : ∀ {id : ElementId} {e : Element}, doc.element? id = some e →
      ∀ a ∈ e.attributes, a.Ordered) :
    r.span.start ≤ r.span.stop ∧ ∀ x ∈ r.related, x.span.start ≤ x.span.stop := by
  cases h with
  | tag he finding => exact ⟨Span.start_le_stop_cover _ _, nofun⟩
  | tagName he finding => exact ⟨Nat.le_add_right _ _, nofun⟩
  | redeclared he finding hrelated =>
    refine ⟨Span.start_le_stop_cover _ _, fun x hx => ?_⟩
    obtain ⟨-, id, e, -, hspan⟩ := hrelated x hx
    rw [hspan]
    exact Span.start_le_stop_cover _ _
  | name he ha hname => exact ⟨Nat.le_add_right _ _, nofun⟩
  | value he ha finding => exact ⟨Span.start_le_stop_cover _ _, nofun⟩
  | source he ha hs hpart => exact ⟨hordered he _ ha _ _ hs.ordered, nofun⟩

theorem Report.Stands.inside {text : List Char} (h : r.Stands doc)
    (htag : ∀ {id : ElementId} {e : Element}, doc.element? id = some e →
      e.start + 1 + e.tag.utf8ByteSize ≤ e.tagStop ∧ e.tagStop ≤ byteLength text)
    (hvalue : ∀ {id : ElementId} {e : Element}, doc.element? id = some e →
      ∀ a ∈ e.attributes, a.valueSpan.stop ≤ e.tagStop)
    (hinside : Reader.withoutMark text = text → ∀ {id : ElementId} {e : Element},
      doc.element? id = some e → ∀ a ∈ e.attributes, a.Inside e.tagStop)
    (hsure : r.finding.Sure text) :
    r.span.stop ≤ byteLength text ∧
      ∀ x ∈ r.related, x.document = doc.id ∧ x.span.stop ≤ byteLength text := by
  have htagSpan : ∀ {id : ElementId} {e : Element}, doc.element? id = some e →
      e.tagSpan.stop ≤ byteLength text := by
    intro id e he
    obtain ⟨hstart, hstop⟩ := htag he
    exact max_le (by omega) hstop
  cases h with
  | tag he finding => exact ⟨htagSpan he, nofun⟩
  | tagName he finding => exact ⟨(htag he).1.trans (htag he).2, nofun⟩
  | redeclared he finding hrelated =>
    refine ⟨htagSpan he, fun x hx => ?_⟩
    obtain ⟨hdocument, id, e, he', hspan⟩ := hrelated x hx
    exact ⟨hdocument, hspan ▸ htagSpan he'⟩
  | name he ha hfinding =>
    rcases hsure.mark with hmark | ⟨hnone, -⟩
    · have hname := (hinside hmark he _ ha).name (hsure.feed _ hfinding)
      exact ⟨hname.trans (htag he).2, nofun⟩
    · exact absurd (hfinding.symm.trans hnone) nofun
  | value he ha finding => exact ⟨(hvalue he _ ha).trans (htag he).2, nofun⟩
  | source he ha hs hpart =>
    rcases hsure.mark with hmark | ⟨-, hnone⟩
    · have hstop := hs.stop.le_byteLength
      rw [byteLength_toList] at hstop
      exact ⟨((hinside hmark he _ ha).source _ hstop).trans (htag he).2, nofun⟩
    · exact absurd (hpart.symm.trans hnone) nofun

end

section

variable {id : DocumentId} {path : String} {text : List Char} {doc : Document} {r : Report}

/-- An element of a bound document has been read as it is, but for its binding. -/
theorem exists_of_element?_bind {s : Schema} {element : ElementId} {e : Element}
    (h : (s.bind doc).element? element = some e) :
    ∃ read, doc.element? element = some read ∧ ∃ binding?, e = { read with binding? := binding? } := by
  rw [element?_bind] at h
  obtain ⟨read, hread, rfl⟩ := Option.map_eq_some_iff.1 h
  exact ⟨read, hread, _, rfl⟩

/-- No span of a report is inverted. -/
theorem reports_ordered (hread : Document.ofText id path text = .ok doc) (s : Schema) (ctx : Context)
    (h : Hierarchy) (hr : r ∈ (document ctx h (s.bind doc)).1) :
    r.span.start ≤ r.span.stop ∧ ∀ x ∈ r.related, x.span.start ≤ x.span.stop := by
  refine (document_stands ctx h (s.bind doc) r hr).ordered ?_
  intro element e he
  obtain ⟨read, helement, binding?, rfl⟩ := exists_of_element?_bind he
  exact fun a ha => Document.ordered_ofText hread helement a ha

/-- The spans of all reports end inside the text when it is known for sure where they stand. -/
theorem reports_inside (hread : Document.ofText id path text = .ok doc) (s : Schema) (ctx : Context)
    (h : Hierarchy) (hr : r ∈ (document ctx h (s.bind doc)).1) (hsure : r.finding.Sure text) :
    r.span.stop ≤ byteLength text ∧
      ∀ x ∈ r.related, x.document = doc.id ∧ x.span.stop ≤ byteLength text := by
  refine (document_stands ctx h (s.bind doc) r hr).inside ?_ ?_ ?_ hsure
  · intro element e he
    obtain ⟨read, helement, binding?, rfl⟩ := exists_of_element?_bind he
    obtain ⟨htag, hstop⟩ := Document.tag_ofText hread helement
    exact ⟨htag, hstop⟩
  · intro element e he
    obtain ⟨read, helement, binding?, rfl⟩ := exists_of_element?_bind he
    exact fun a ha => Document.value_ofText hread helement a ha
  · intro hmark element e he
    obtain ⟨read, helement, binding?, rfl⟩ := exists_of_element?_bind he
    exact fun a ha => Document.inside_ofText hmark hread helement a ha

end

end Check
end UILayout
