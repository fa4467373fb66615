import UILayout.Check.Structure
import UILayout.Hierarchy.Resolve
import UILayout.Selector.Grammar

/-!
# UILayout.Check.Document

Checking a document: whether its elements and attributes are what the schema accepts, and whether
the names in them lead somewhere. Looking names up makes nodes of the hierarchy, so every check that
does so answers with the hierarchy that it leaves.

The reports on structure come first, then all others; both in document order.
-/

namespace UILayout
namespace Check

open Text Schema Markup Namespace

abbrev Reports := List Report × Hierarchy

def inTurn {α : Type} (check : Hierarchy → α → Reports) (h : Hierarchy) : List α → Reports
  | [] => ([], h)
  | a :: rest =>
    let first := check h a
    let more := inTurn check first.2 rest
    (first.1 ++ more.1, more.2)

/-- The faults of a selector expression, where they stand in the document. -/
def selectorReports (a : Attribute) (problems : List Selector.Problem) : List Report :=
  problems.map fun p => .plain (.selector p.fault) (a.sourceSpan p.span)

/-- Reads a path that may not be empty. -/
def readPath (a : Attribute) : Except (List Report) Selector.Path :=
  let path := Selector.Path.ofText a.value.toList
  if path.hasProblems then .error (selectorReports a path.problems)
  else if path.isEmpty then .error [.plain .emptyPath a.valueSpan]
  else .ok path

/-! ## Values -/

def checkTemplate (ctx : Context) (a : Attribute) : List Report :=
  match readPath a with
  | .error reports => reports
  | .ok path =>
    match ctx.names.follow? Namespace.root (path.fragmentTexts a.value.toList) with
    | none => [.plain (.templateNotFound a.value) a.valueSpan]
    | some id =>
      if ctx.names.kind? id = some .file then [.plain .templateIsFile a.valueSpan] else []

/-- What a desc is called in a report: its type, or else its kind. -/
def typeName (ctx : Context) (id : DescId) : String :=
  match ctx.names.descs[id]? with
  | none => ""
  | some d =>
    ((d.type?.bind (ctx.schema.complexTypes[·]?)).map (·.name)).getD d.kind.name

def checkClass (ctx : Context) (a : Attribute) (target : DescId) (frameClass : String) : List Report :=
  match ctx.frameTypeOf? target with
  | some f =>
    if f.hasClass ctx.schema frameClass then [] else [.plain (.wrongClass f.name frameClass) a.valueSpan]
  | none => [.plain (.wrongClass (typeName ctx target) frameClass) a.valueSpan]

/-- Tests whether a path leads to a desc, of the class that the simple type asks for. -/
def checkReference (ctx : Context) (h : Hierarchy) (a : Attribute) (t : SimpleType)
    (scope : DescId) : Reports :=
  match readPath a with
  | .error reports => (reports, h)
  | .ok path =>
    let found := h.resolve ctx scope path
    match found.1.target? with
    | none =>
      let step? := path.fragments[found.1.items.length]?
      if found.1.isComplete then ([], found.2)
      else
        ([.plain (.unresolvedPath a.value) (a.sourceSpan ((step?.map (·.span)).getD path.span))],
          found.2)
    | some target =>
      match t.internal? with
      | none => ([], found.2)
      | some frameClass => (checkClass ctx a target frameClass, found.2)

/-- Checks a value that stands for itself: that it fits its simple type, and then where it leads. -/
def checkPlain (ctx : Context) (scope : DescId) (h : Hierarchy) (a : Attribute)
    (type : SimpleTypeId) : Reports :=
  match ctx.schema.checkValue a.value type with
  | .error fault => ([.plain (.invalidValue a.name fault) a.valueSpan], h)
  | .ok () =>
    match ctx.schema.simpleTypes[type]? with
    | none => ([], h)
    | some t =>
      match t.builtin with
      | .descTemplateName => (checkTemplate ctx a, h)
      | .descInternal => checkReference ctx h a t scope
      | _ => ([], h)

def checkBind (ctx : Context) (a : Attribute) : List Report :=
  let bind := Selector.Bind.ofText a.value.toList
  if bind.hasProblems then selectorReports a bind.problems
  else
    match bind.property? with
    | none => []
    | some property =>
      if (ctx.schema.propertyNamed? property.text).isNone then
        [.plain (.unknownBoundProperty property.text) a.valueSpan]
      else []

/-- Does an attribute of this type take paths? -/
def takesPath (s : Schema) (type : SimpleTypeId) : Bool :=
  s.simpleTypes[type]?.any (·.builtin.isSelector)

/-- Checks a value that names a constant. Where a path may stand, the name may also be a handle. -/
def checkConstant (ctx : Context) (scope : DescId) (h : Hierarchy) (a : Attribute)
    (type : SimpleTypeId) (r : Reference) : Reports :=
  let undeclared : List Report := [.plain (.undeclaredConstant a.value) a.valueSpan]
  match ctx.names.resolve? r with
  | some _ => ([], h)
  | none =>
    match r with
    | .racial _ => (undeclared, h)
    | .exact name =>
      if takesPath ctx.schema type && (ctx.names.handle? name).isSome then
        checkPlain ctx scope h a type
      else (undeclared, h)

def checkValue (ctx : Context) (scope : DescId) (h : Hierarchy) (a : Attribute)
    (type : SimpleTypeId) : Reports :=
  match Reference.ofValue? a.value with
  | some r => checkConstant ctx scope h a type r
  | none =>
    match ValueForm.ofText a.value.toList with
    | .bind => (checkBind ctx a, h)
    | _ => checkPlain ctx scope h a type

/-! ## Elements -/

def checkAttribute (ctx : Context) (allowExtra : Bool) (scope : DescId) (h : Hierarchy)
    (typed : Attribute × Typing) : Reports :=
  let a := typed.1
  match typed.2 with
  | .declared type => checkValue ctx scope h a type
  | .wildcard rule =>
    let value := checkValue ctx scope h a rule.value
    (wildcardName ctx.schema a rule.key ++ value.1, value.2)
  | .unknown => (if allowExtra then [] else [.plain (.unknownAttribute a.name) a.nameSpan], h)

def checkAttributes (ctx : Context) (scope : DescId) (h : Hierarchy) (e : Element)
    (t : ComplexType) : Reports :=
  let typed := typeAttributes t t.wildcards e.attributes
  let checked := inTurn (checkAttribute ctx t.flags.allowExtra scope) h typed.1
  (checked.1 ++ unusedWildcards ctx.schema e typed.2, checked.2)

/-- Checks that the file that an element links to is there, and has the desc. -/
def checkFile (ctx : Context) (h : Hierarchy) (e : Element) (id : DescId) (name : String)
    (file : Attribute) : Reports :=
  if (ctx.names.child? Namespace.root file.value).isNone then
    ([.plain (.fileNotFound file.value) file.valueSpan], h)
  else
    match h.ofDesc ctx id with
    | (some _, h) => ([], h)
    | (none, h) =>
      let span := ((e.attribute? "name").map (·.valueSpan)).getD e.tagSpan
      ([.plain (.notInFile name file.value) span], h)

/-- Finds an element of the same document that declares the same desc and does not start later. -/
def checkRedeclared (doc : Document) (ref : ElementRef) (e : Element) (d : Desc) : List Report :=
  match (d.sitesIn ref.document).find? fun s => decide (s.element ≠ ref) && s.start ≤ e.start with
  | none => []
  | some first =>
    let related := (doc.element? first.element.element).toList.map fun f : Element =>
      (⟨ref.document, f.tagSpan, "first declared here"⟩ : Related)
    [⟨.redeclared d.path, e.tagSpan, related⟩]

def checkDeclaration (ctx : Context) (doc : Document) (h : Hierarchy) (ref : ElementRef)
    (e : Element) (id : DescId) : Reports :=
  match ctx.names.descs[id]? with
  | none => ([], h)
  | some d =>
    match e.attribute? "file" with
    | some file => checkFile ctx h e id d.name file
    | none => (checkRedeclared doc ref e d, h)

/-- Checks where the names in an element lead. -/
def checkElement (ctx : Context) (doc : Document) (h : Hierarchy)
    (bound : ElementId × Element × Binding) : Reports :=
  let ref := doc.ref bound.1
  let e := bound.2.1
  let b := bound.2.2
  let declared? :=
    if (ctx.schema.slotKind b.slot).declares then ctx.names.declared? ref else none
  let declaration :=
    match declared? with
    | some id => checkDeclaration ctx doc h ref e id
    | none => ([], h)
  match ctx.schema.complexTypes[b.type]? with
  | none => declaration
  | some t =>
    let attributes := checkAttributes ctx (ctx.scopeOf ref) declaration.2 e t
    (declaration.1 ++ attributes.1, attributes.2)

def structureReports (s : Schema) (doc : Document) : List Report :=
  (boundElements doc).flatMap fun e => structureOf s doc e.1 e.2.1 e.2.2

def document (ctx : Context) (h : Hierarchy) (doc : Document) : Reports :=
  let names := inTurn (checkElement ctx doc) h (boundElements doc)
  (structureReports ctx.schema doc ++ names.1, names.2)

end Check
end UILayout
