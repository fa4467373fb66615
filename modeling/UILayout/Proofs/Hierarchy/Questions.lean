import UILayout.Check.Document
import UILayout.Outline.Definition
import UILayout.Proofs.Hierarchy.Steady

/-!
# UILayout.Proofs.Hierarchy.Questions

Checking a document and finding definitions are steady: they ask one question after the other, and
each of these is answered from the schema, the namespace and the documents alone.

* `Check.steady_document`: the reports on a document.
* `Outline.steady_definitionAt`: where a value leads.
-/

namespace UILayout

open Schema Markup Namespace Hierarchy

namespace Check

variable {α : Type} {ctx : Context}

theorem steady_inTurn {check : Hierarchy → α → Reports}
    (hcheck : ∀ a, Steady ctx fun h => check h a) (items : List α) :
    Steady ctx fun h => inTurn check h items := by
  induction items with
  | nil => exact .const ctx []
  | cons a rest ih => exact (hcheck a).bind fun first => ih.map (first ++ ·)

/-- Each of some checks that are made in turn reports what it would report if it were the only one. -/
theorem inTurn_eq_flatMap {check : Hierarchy → α → Reports}
    (hcheck : ∀ a, Steady ctx fun h => check h a) {h : Hierarchy} (hc : Coherent ctx h)
    (items : List α) : (inTurn check h items).1 = items.flatMap fun a => (check h a).1 := by
  have run : ∀ {h' : Hierarchy}, Coherent ctx h' →
      (inTurn check h' items).1 = items.flatMap fun a => (check h a).1 := by
    induction items with
    | nil => exact fun _ => rfl
    | cons a rest ih =>
      intro h' hc'
      rw [inTurn, List.flatMap_cons, ih ((hcheck a).coherent hc'), (hcheck a).agrees hc' hc]
  exact run hc

/-- The reports on a path, given what it stands for. -/
def referenceReports (ctx : Context) (a : Attribute) (t : SimpleType) (path : Selector.Path)
    (found : Resolution) : List Report :=
  match found.target? with
  | none =>
    if found.isComplete then []
    else
      [.plain (.unresolvedPath a.value)
        (a.sourceSpan (((path.fragments[found.items.length]?).map (·.span)).getD path.span))]
  | some target =>
    match t.internal? with
    | none => []
    | some frameClass => checkClass ctx a target frameClass

theorem checkReference_eq (ctx : Context) (h : Hierarchy) {a : Attribute} {path : Selector.Path}
    (hpath : readPath a = .ok path) (t : SimpleType) (scope : DescId) :
    checkReference ctx h a t scope =
      (referenceReports ctx a t path (h.resolve ctx scope path).1, (h.resolve ctx scope path).2) := by
  unfold checkReference referenceReports
  simp only [hpath]
  generalize h.resolve ctx scope path = found
  obtain ⟨r, h₁⟩ := found
  cases r.target? with
  | none =>
    dsimp only
    split <;> rfl
  | some target => cases t.internal? <;> rfl

theorem steady_checkReference (ctx : Context) (a : Attribute) (t : SimpleType) (scope : DescId) :
    Steady ctx fun h => checkReference ctx h a t scope := by
  cases hpath : readPath a with
  | error reports =>
    unfold checkReference
    simp only [hpath]
    exact .const ctx reports
  | ok path => exact (steady_resolve ctx scope path).of_eq _ fun h => checkReference_eq ctx h hpath t scope

theorem steady_checkPlain (ctx : Context) (scope : DescId) (a : Attribute) (type : SimpleTypeId) :
    Steady ctx fun h => checkPlain ctx scope h a type := by
  unfold checkPlain
  cases ctx.schema.checkValue a.value type with
  | error fault => exact .const ctx _
  | ok _ =>
    dsimp only
    cases ctx.schema.simpleTypes[type]? with
    | none => exact .const ctx _
    | some t =>
      dsimp only
      cases t.builtin with
      | descInternal => exact steady_checkReference ctx a t scope
      | descTemplateName => exact .const ctx (checkTemplate ctx a)
      | _ => exact .const ctx _

theorem steady_checkConstant (ctx : Context) (scope : DescId) (a : Attribute) (type : SimpleTypeId)
    (r : Reference) : Steady ctx fun h => checkConstant ctx scope h a type r := by
  unfold checkConstant
  cases ctx.names.resolve? r with
  | some c => exact .const ctx _
  | none =>
    cases r with
    | racial name => exact .const ctx _
    | exact name =>
      dsimp only
      split
      · exact steady_checkPlain ctx scope a type
      · exact .const ctx _

theorem steady_checkValue (ctx : Context) (scope : DescId) (a : Attribute) (type : SimpleTypeId) :
    Steady ctx fun h => checkValue ctx scope h a type := by
  unfold checkValue
  cases Reference.ofValue? a.value with
  | some r => exact steady_checkConstant ctx scope a type r
  | none =>
    dsimp only
    cases ValueForm.ofText a.value.toList with
    | bind => exact .const ctx (checkBind ctx a)
    | _ => exact steady_checkPlain ctx scope a type

theorem steady_checkAttribute (ctx : Context) (allowExtra : Bool) (scope : DescId)
    (typed : Attribute × Typing) :
    Steady ctx fun h => checkAttribute ctx allowExtra scope h typed := by
  unfold checkAttribute
  cases typed.2 with
  | declared type => exact steady_checkValue ctx scope typed.1 type
  | wildcard rule =>
    exact (steady_checkValue ctx scope typed.1 rule.value).map
      (wildcardName ctx.schema typed.1 rule.key ++ ·)
  | unknown => exact .const ctx _

theorem steady_checkAttributes (ctx : Context) (scope : DescId) (e : Element) (t : ComplexType) :
    Steady ctx fun h => checkAttributes ctx scope h e t :=
  (steady_inTurn (steady_checkAttribute ctx t.flags.allowExtra scope)
    (typeAttributes t t.wildcards e.attributes).1).map
      (· ++ unusedWildcards ctx.schema e (typeAttributes t t.wildcards e.attributes).2)

theorem steady_checkFile (ctx : Context) (e : Element) (id : DescId) (name : String)
    (file : Attribute) : Steady ctx fun h => checkFile ctx h e id name file := by
  unfold checkFile
  split
  · exact .const ctx _
  · refine (steady_ofDesc ctx id).of_eq (fun found => if found then [] else
      [.plain (.notInFile name file.value)
        (((e.attribute? "name").map (·.valueSpan)).getD e.tagSpan)]) fun h => ?_
    generalize h.ofDesc ctx id = r
    obtain ⟨c, h₁⟩ := r
    cases c <;> rfl

theorem steady_checkDeclaration (ctx : Context) (doc : Document) (ref : ElementRef) (e : Element)
    (id : DescId) : Steady ctx fun h => checkDeclaration ctx doc h ref e id := by
  unfold checkDeclaration
  cases ctx.names.descs[id]? with
  | none => exact .const ctx _
  | some d =>
    dsimp only
    cases e.attribute? "file" with
    | some file => exact steady_checkFile ctx e id d.name file
    | none => exact .const ctx _

theorem steady_checkElement (ctx : Context) (doc : Document)
    (bound : ElementId × Element × Binding) :
    Steady ctx fun h => checkElement ctx doc h bound := by
  have typed : ∀ {f : Hierarchy → Reports}, Steady ctx f → ∀ t : ComplexType,
      Steady ctx fun h => ((f h).1 ++ (checkAttributes ctx (ctx.scopeOf (doc.ref bound.1)) (f h).2
        bound.2.1 t).1, (checkAttributes ctx (ctx.scopeOf (doc.ref bound.1)) (f h).2 bound.2.1 t).2) :=
    fun hf t => hf.bind fun first =>
      (steady_checkAttributes ctx (ctx.scopeOf (doc.ref bound.1)) bound.2.1 t).map (first ++ ·)
  unfold checkElement
  dsimp only
  generalize (if (ctx.schema.slotKind bound.2.2.slot).declares = true then
    ctx.names.declared? (doc.ref bound.1) else none) = declared?
  cases declared? with
  | some id =>
    have hfirst := steady_checkDeclaration ctx doc (doc.ref bound.1) bound.2.1 id
    cases ctx.schema.complexTypes[bound.2.2.type]? with
    | none => exact hfirst
    | some t => exact typed hfirst t
  | none =>
    cases ctx.schema.complexTypes[bound.2.2.type]? with
    | none => exact .const ctx _
    | some t => exact typed (.const ctx _) t

theorem steady_document (ctx : Context) (doc : Document) :
    Steady ctx fun h => document ctx h doc :=
  (steady_inTurn (steady_checkElement ctx doc) (boundElements doc)).map
    (structureReports ctx.schema doc ++ ·)

end Check

namespace Outline

theorem steady_pathTargets (ctx : Context) (scope : DescId) (path : Selector.Path) (position : Nat) :
    Steady ctx fun h => pathTargets ctx h scope path position := by
  unfold pathTargets
  split
  · exact .const ctx _
  · cases path.fragmentAt? position with
    | none => exact .const ctx _
    | some i =>
      exact (steady_resolve ctx scope path).map fun found =>
        ((found.items[i]?).getD []).flatMap (descTargets ctx)

theorem steady_valueTargets (ctx : Context) (scope : DescId) (builtin : Builtin) (value : String)
    (position : Nat) : Steady ctx fun h => valueTargets ctx h scope builtin value position := by
  unfold valueTargets
  cases Reference.ofValue? value with
  | some r =>
    dsimp only
    cases ctx.names.resolve? r with
    | some c => exact .const ctx (constantTargets ctx c)
    | none =>
      cases r with
      | racial name => exact .const ctx _
      | exact name =>
        dsimp only
        split
        · exact steady_pathTargets ctx scope _ position
        · exact .const ctx _
  | none =>
    dsimp only
    cases ValueForm.ofText value.toList with
    | bind => exact steady_pathTargets ctx scope _ position
    | _ =>
      cases builtin with
      | descInternal => exact steady_pathTargets ctx scope _ position
      | frameReference => exact steady_pathTargets ctx scope _ position
      | _ => exact .const ctx _

theorem steady_definitionAt (ctx : Context) (doc : Document) (offset : Nat) :
    Steady ctx fun h => definitionAt ctx h doc offset := by
  unfold definitionAt
  cases doc.elementAt? offset with
  | none => exact .const ctx _
  | some id =>
    dsimp only
    cases doc.element? id with
    | none => exact .const ctx _
    | some e =>
      dsimp only
      cases e.binding? with
      | none => exact .const ctx _
      | some b =>
        cases attributeAt? e offset with
        | none => exact .const ctx _
        | some found => exact steady_valueTargets ctx _ _ _ _

end Outline
end UILayout
