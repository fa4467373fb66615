import UILayout.Hierarchy.Resolve
import UILayout.Outline.Symbol
import UILayout.Selector.Grammar

/-!
# UILayout.Outline.Definition

Where the value at some offset leads: the elements that declare the constant or the desc that it
names. In a path it is the step at the offset that counts, not the whole path.
-/

namespace UILayout
namespace Outline

open Text Schema Markup Namespace

/-- An element that declares what was asked for. -/
structure Target where
  document : DocumentId
  span : Span
  focus : Span
  /-- The path of the desc; the bare name of a constant. -/
  name : String
  deriving DecidableEq, Repr

abbrev Targets := List Target × Hierarchy

def targetAt? (ctx : Context) (site : ElementRef) (name : String) : Option Target :=
  (ctx.element? site).map fun e => ⟨site.document, e.span, nameSpan e, name⟩

def constantTargets (ctx : Context) (c : Constant) : List Target :=
  (targetAt? ctx c.site c.name).toList

def descTargets (ctx : Context) (id : DescId) : List Target :=
  match ctx.names.descs[id]? with
  | none => []
  | some d => d.sites.filterMap fun site => targetAt? ctx site.element d.path

/-- The targets of the step of a path at an offset in the value. -/
def pathTargets (ctx : Context) (h : Hierarchy) (scope : DescId) (path : Selector.Path)
    (position : Nat) : Targets :=
  if path.hasProblems then ([], h)
  else
    match path.fragmentAt? position with
    | none => ([], h)
    | some i =>
      let found := h.resolve ctx scope path
      (((found.1.items[i]?).getD []).flatMap (descTargets ctx), found.2)

/-- The targets of a template path, which is looked up in the namespace. -/
def templateTargets (ctx : Context) (value : String) (position : Nat) : List Target :=
  let path := Selector.Path.ofText value.toList
  match path.fragmentAt? position with
  | none => []
  | some i =>
    let names := (path.fragmentTexts value.toList).take (i + 1)
    ((ctx.names.follow? Namespace.root names).map (descTargets ctx)).getD []

/-- The simple type that an attribute without a definition is read as. -/
def builtinOf (s : Schema) (type : ComplexTypeId) (name : String) : Builtin :=
  match s.complexTypes[type]? with
  | none => .unknown
  | some t =>
    let type? := ((t.attributes.get? name).map (·.type)).or (t.wildcards.head?.map (·.value))
    ((type?.bind (s.simpleTypes[·]?)).map (·.builtin)).getD .unknown

/-- Where the value of an attribute leads. -/
def valueTargets (ctx : Context) (h : Hierarchy) (scope : DescId) (builtin : Builtin)
    (value : String) (position : Nat) : Targets :=
  let asPath : Targets := pathTargets ctx h scope (.ofText value.toList) position
  match Reference.ofValue? value with
  | some r =>
    match ctx.names.resolve? r, r with
    | some c, _ => (constantTargets ctx c, h)
    | none, .exact _ => if builtin.isSelector then asPath else ([], h)
    | none, .racial _ => ([], h)
  | none =>
    match ValueForm.ofText value.toList with
    | .bind => pathTargets ctx h scope (Selector.Bind.ofText value.toList).target position
    | _ =>
      match builtin with
      | .descTemplateName => (templateTargets ctx value position, h)
      | .fileDescName =>
        (((ctx.names.child? Namespace.root value).map (descTargets ctx)).getD [], h)
      | .descInternal | .frameReference => asPath
      | _ => ([], h)

/-- The first attribute whose value lies at an offset, and the offset in the value. -/
def attributeAt? (e : Element) (offset : Nat) : Option (Attribute × Nat) :=
  e.attributes.findSome? fun a => (a.valuePosition? offset).map fun p => (a, p)

def definitionAt (ctx : Context) (h : Hierarchy) (doc : Document) (offset : Nat) : Targets :=
  match doc.elementAt? offset with
  | none => ([], h)
  | some id =>
    match doc.element? id with
    | none => ([], h)
    | some e =>
      match e.binding?, attributeAt? e offset with
      | some b, some (a, position) =>
        valueTargets ctx h (ctx.scopeOf (doc.ref id)) (builtinOf ctx.schema b.type a.name) a.value
          position
      | _, _ => ([], h)

end Outline
end UILayout
