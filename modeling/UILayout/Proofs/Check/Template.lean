import UILayout.Proofs.Hierarchy.Reach
import UILayout.Proofs.Namespace.Independent
import UILayout.Proofs.Selector.Names
import UILayout.Proofs.Workspace.Session

/-!
# UILayout.Proofs.Check.Template

A template is read twice: by the check, which reports one that leads nowhere, and by the hierarchy,
which takes over what the template has. The check reads the value as a path, where blanks only
separate, and the hierarchy cuts it at its slashes as it stands.

* `checkTemplate_eq_nil_iff`: what the check accepts.
* `linked_iff`: what the hierarchy takes over.
* `template_agrees`: how the two compare, and that they agree on what is written without blanks.
* `padded_template_lost`: a template that the check accepts and the hierarchy does not see.
-/

namespace UILayout
namespace Check

open Text Schema Markup Namespace Selector

/-- Names lead from the root to a desc that is no file. -/
def Leads (n : Namespace) (names : List String) : Prop :=
  ∃ id, n.follow? Namespace.root names = some id ∧ n.kind? id ≠ some .file

/-- The names of a path, without the blanks around them. -/
def trimmedNames (value : String) : List String :=
  (splitOn '/' value.toList).map fun part => String.ofList (trimBlanks part)

/-- A value is a path, with one fragment at least. -/
def ReadsPath (value : String) : Prop :=
  (Path.ofText value.toList).problems = [] ∧ (Path.ofText value.toList).fragments ≠ []

/-- The target of a template is found, and among the sources of some descs. -/
def Linked (ctx : Context) (descs : List DescId) (value : String) : Prop :=
  ∃ target ∈ (Hierarchy.templateLink ctx.names value).targets,
    target ∈ (Hierarchy.Reach.ofDescs ctx descs).sources

/-- The simple types that an attribute has accept its name and its value. -/
def Typing.Accepts (s : Schema) (a : Attribute) (typing : Typing) : Prop :=
  (∀ rule, typing = .wildcard rule → wildcardName s a rule.key = []) ∧
    ∀ type, typing.value? = some type → s.checkValue a.value type = .ok ()

/-- `a` is the template of an element, and a plain value. -/
structure NamesTemplate (ctx : Context) (r : ElementRef) (t : ComplexType) (a : Attribute)
    (typing : Typing) : Prop where
  typed : ∃ e, ctx.element? r = some e ∧ e.attribute? "template" = some a ∧
    (∃ b, e.binding? = some b ∧ ctx.schema.complexTypes[b.type]? = some t) ∧
    (a, typing) ∈ (typeAttributes t t.wildcards e.attributes).1
  type : ∃ type simple, typing.value? = some type ∧ ctx.schema.simpleTypes[type]? = some simple ∧
    simple.builtin = .descTemplateName
  plain : ValueForm.ofText a.value.toList = .plain

/-! ## The check -/

theorem readPath_of_readsPath {a : Attribute} (h : ReadsPath a.value) :
    readPath a = .ok (Path.ofText a.value.toList) := by
  simp [readPath, Path.hasProblems, Path.isEmpty, h.1, h.2]

theorem readPath_of_not_readsPath {a : Attribute} (h : ¬ ReadsPath a.value) :
    ∃ reports, reports ≠ [] ∧ readPath a = .error reports := by
  by_cases hproblems : (Path.ofText a.value.toList).problems = []
  · have hempty : (Path.ofText a.value.toList).fragments = [] := by
      by_contra hfragments
      exact h ⟨hproblems, hfragments⟩
    refine ⟨[.plain .emptyPath a.valueSpan], List.cons_ne_nil _ _, ?_⟩
    simp [readPath, Path.hasProblems, Path.isEmpty, hproblems, hempty]
  · refine ⟨selectorReports a (Path.ofText a.value.toList).problems, ?_, ?_⟩
    · simpa [selectorReports] using hproblems
    · simp [readPath, Path.hasProblems, hproblems]

theorem checkTemplate_eq_nil_iff (ctx : Context) (a : Attribute) :
    checkTemplate ctx a = [] ↔ ReadsPath a.value ∧ Leads ctx.names (trimmedNames a.value) := by
  unfold checkTemplate
  by_cases hreads : ReadsPath a.value
  · have hnames : (Path.ofText a.value.toList).fragmentTexts a.value.toList = trimmedNames a.value :=
      Path.fragmentTexts_eq hreads.1 hreads.2
    rw [readPath_of_readsPath hreads]
    dsimp only
    rw [hnames]
    unfold Leads
    cases ctx.names.follow? Namespace.root (trimmedNames a.value) <;> simp [hreads]
  · obtain ⟨reports, hne, hread⟩ := readPath_of_not_readsPath hreads
    simp [hread, hreads, hne]

theorem checkValue_template {ctx : Context} {a : Attribute} {type : SimpleTypeId} {simple : SimpleType}
    (hsimple : ctx.schema.simpleTypes[type]? = some simple) (hbuiltin : simple.builtin = .descTemplateName)
    (hplain : ValueForm.ofText a.value.toList = .plain) (scope : DescId) (h : Hierarchy) :
    (checkValue ctx scope h a type).1 = [] ↔
      ctx.schema.checkValue a.value type = .ok () ∧ checkTemplate ctx a = [] := by
  unfold checkValue Reference.ofValue? checkPlain
  rw [hplain]
  dsimp only
  cases ctx.schema.checkValue a.value type with
  | error fault => simp
  | ok u => simp [hsimple, hbuiltin]

theorem NamesTemplate.silent_iff {ctx : Context} {r : ElementRef} {t : ComplexType} {a : Attribute}
    {typing : Typing} (hn : NamesTemplate ctx r t a typing) (allowExtra : Bool) (scope : DescId)
    (h : Hierarchy) :
    (checkAttribute ctx allowExtra scope h (a, typing)).1 = [] ↔
      typing.Accepts ctx.schema a ∧ ReadsPath a.value ∧ Leads ctx.names (trimmedNames a.value) := by
  obtain ⟨type, simple, htype, hsimple, hbuiltin⟩ := hn.type
  have hvalue := checkValue_template hsimple hbuiltin hn.plain scope h
  rw [checkTemplate_eq_nil_iff] at hvalue
  unfold checkAttribute Typing.Accepts
  cases typing with
  | declared type' =>
    cases htype
    simp [Typing.value?, hvalue]
  | wildcard rule =>
    cases htype
    simp [Typing.value?, hvalue, and_assoc]
  | unknown => cases htype

/-! ## The hierarchy -/

theorem linked_iff {history : List Update} {ctx : Context} (hnames : ctx.names = after history)
    {r : ElementRef} {id : DescId} (hdeclared : ctx.names.declared? r = some id) {e : Element}
    (he : ctx.element? r = some e) {value : String} (hv : e.value? "template" = some value)
    {descs : List DescId} (hid : id ∈ descs) :
    Linked ctx descs value ↔ Leads ctx.names (pathNames value) := by
  have tree : IsTree ctx.names := hnames ▸ (settled_after history).tree
  rw [hnames] at hdeclared
  obtain ⟨d, hd, site, hsite, rfl⟩ := exists_site_of_declared? hdeclared
  rw [← hnames] at hd
  constructor
  · rintro ⟨target, htarget, -⟩
    exact ⟨target, Hierarchy.mem_targets_templateLink.1 htarget⟩
  · rintro ⟨target, htarget⟩
    have hlink := Hierarchy.mem_targets_templateLink.2 htarget
    exact ⟨target, hlink, Hierarchy.Reach.mem_sources_of_template tree hid hd hsite he hv hlink⟩

/-! ## Both -/

/-- The check accepts a template whose names lead to a desc when the blanks around them are left out,
and the hierarchy finds it when they lead there as they stand. So the two agree on a path that is
written without blanks around its names, when the types of the attribute accept it. -/
theorem template_agrees (s : Schema) (commands : List Workspace.Command) {r : ElementRef} {id : DescId}
    {t : ComplexType} {a : Attribute} {typing : Typing} {descs : List DescId} (h : Hierarchy)
    (hn : NamesTemplate (Workspace.after s commands).context r t a typing)
    (hdeclared : (Workspace.after s commands).context.names.declared? r = some id)
    (hid : id ∈ descs) :
    let ctx := (Workspace.after s commands).context
    let silent := (checkAttribute ctx t.flags.allowExtra (ctx.scopeOf r) h (a, typing)).1 = []
    (silent ↔ typing.Accepts ctx.schema a ∧ ReadsPath a.value ∧
        Leads ctx.names (trimmedNames a.value)) ∧
      (Linked ctx descs a.value ↔ Leads ctx.names (pathNames a.value)) ∧
      (typing.Accepts ctx.schema a → ReadsPath a.value →
        (∀ part ∈ splitOn '/' a.value.toList, trimBlanks part = part) →
        (silent ↔ Linked ctx descs a.value)) := by
  intro ctx silent
  obtain ⟨history, hnames⟩ := (Workspace.valid_after s commands).names
  obtain ⟨e, he, ha, -, -⟩ := hn.typed
  have hv : e.value? "template" = some a.value := by rw [Element.value?, ha, Option.map_some]
  have hsilent : silent ↔ _ := hn.silent_iff t.flags.allowExtra (ctx.scopeOf r) h
  have hlinked : Linked ctx descs a.value ↔ _ := linked_iff hnames hdeclared he hv hid
  refine ⟨hsilent, hlinked, fun haccepts hreads htrimmed => ?_⟩
  have hsame : trimmedNames a.value = pathNames a.value :=
    List.map_congr_left fun part hpart => congrArg String.ofList (htrimmed part hpart)
  rw [hsilent, hlinked, hsame]
  exact ⟨fun hall => hall.2.2, fun hleads => ⟨haccepts, hreads, hleads⟩⟩

/-! ## A template with a blank before it -/

/-- A frame may have a template, and frames inside it. -/
def framed : ComplexType where
  name := "Frame"
  attributes := ⟨[("template", ⟨"template", 0, false, none, none, none⟩)]⟩
  wildcards := []
  slots := ⟨[("Frame", 1)]⟩
  flags := ⟨false, false, true⟩
  bases := .empty
  inheritedAttributes := .empty
  inheritedSlots := .empty
  ownAttributes := .empty
  ownSlots := .empty
  label? := none
  documentation? := none

def framesOnly : Schema where
  simpleTypes := #[⟨"DescTemplateName", .default, .descTemplateName, false, none, .empty, [], [], none⟩]
  complexTypes := #[framed]
  slots := #[⟨"Desc", .desc, 0, .empty, none, none⟩, ⟨"Frame", .frame, 0, .empty, none, none⟩]
  classes := #[]
  properties := #[]
  frameTypes := #[]
  root := 0

/-- A frame `T/Dialog`, and a frame `A/F` with a template. -/
def templated (template : String) : Context :=
  (Workspace.after framesOnly [
    .setFile "T" "<Desc><Frame name=\"Dialog\"/></Desc>".toList,
    .setFile "A" ("<Desc><Frame name=\"F\" template=\"" ++ template ++ "\"/></Desc>").toList]).context

theorem schema_templated (template : String) : (templated template).schema = framesOnly :=
  (Workspace.schema_setFile _ _ _).trans (Workspace.schema_setFile _ _ _)

theorem namesTemplate_templated {template : String}
    (he : ((templated template).element? ⟨1, 1⟩).map (fun e => (e.attributes, e.binding?)) =
      some ([.plain "name" "F" 13, .plain "template" template 22], some ⟨1, 0⟩))
    (hplain : ValueForm.ofText template.toList = .plain) :
    NamesTemplate (templated template) ⟨1, 1⟩ framed (.plain "template" template 22)
      (.declared 0) := by
  have hschema := schema_templated template
  obtain ⟨e, he, heq⟩ := Option.map_eq_some_iff.1 he
  obtain ⟨hattributes, hbinding⟩ := Prod.mk.inj heq
  refine ⟨⟨e, he, ?_, ⟨⟨1, 0⟩, hbinding, by rw [hschema]; rfl⟩, ?_⟩, ⟨0, _, rfl, by rw [hschema]; rfl, rfl⟩,
    hplain⟩
  · rw [Element.attribute?, hattributes]
    rfl
  · rw [hattributes]
    exact List.mem_cons_of_mem _ List.mem_cons_self

/-- Without the blank, the template is accepted and taken over. -/
theorem template_agrees_dialog :
    let ctx := templated "T/Dialog"
    let a := Attribute.plain "template" "T/Dialog" 22
    (NamesTemplate ctx ⟨1, 1⟩ framed a (.declared 0) ∧ ctx.names.declared? ⟨1, 1⟩ = some 4) ∧
      ((checkAttribute ctx framed.flags.allowExtra (ctx.scopeOf ⟨1, 1⟩) .empty (a, .declared 0)).1 = [] ↔
        Linked ctx [4] "T/Dialog") := by
  intro ctx a
  have hn : NamesTemplate ctx ⟨1, 1⟩ framed a (.declared 0) :=
    namesTemplate_templated (by decide +kernel) (by decide +kernel)
  have hdeclared : ctx.names.declared? ⟨1, 1⟩ = some 4 := by decide +kernel
  have haccepts : Typing.Accepts ctx.schema a (.declared 0) := by
    rw [schema_templated "T/Dialog"]
    refine ⟨nofun, ?_⟩
    rintro type ⟨⟩
    rfl
  have hreads : ReadsPath a.value := ⟨by decide +kernel, by decide +kernel⟩
  exact ⟨⟨hn, hdeclared⟩, (template_agrees framesOnly _ .empty hn hdeclared List.mem_cons_self).2.2
    haccepts hreads (by decide +kernel)⟩

/-- The check accepts a template with a blank before it, which the hierarchy does not see. -/
theorem padded_template_lost :
    let ctx := templated " T/Dialog"
    let a := Attribute.plain "template" " T/Dialog" 22
    (NamesTemplate ctx ⟨1, 1⟩ framed a (.declared 0) ∧ ctx.names.declared? ⟨1, 1⟩ = some 4) ∧
      (checkAttribute ctx framed.flags.allowExtra (ctx.scopeOf ⟨1, 1⟩) .empty (a, .declared 0)).1 = [] ∧
      ¬ Linked ctx [4] " T/Dialog" := by
  intro ctx a
  have hn : NamesTemplate ctx ⟨1, 1⟩ framed a (.declared 0) :=
    namesTemplate_templated (by decide +kernel) (by decide +kernel)
  have hdeclared : ctx.names.declared? ⟨1, 1⟩ = some 4 := by decide +kernel
  have hsilent : (checkAttribute ctx framed.flags.allowExtra (ctx.scopeOf ⟨1, 1⟩) .empty
      (a, .declared 0)).1 = [] := by decide +kernel
  have hsources : (Hierarchy.templateLink ctx.names " T/Dialog").targets = [] := by decide +kernel
  refine ⟨⟨hn, hdeclared⟩, hsilent, ?_⟩
  rintro ⟨target, htarget, -⟩
  rw [hsources] at htarget
  cases htarget

end Check
end UILayout
