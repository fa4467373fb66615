import UILayout.Check.Finding

/-!
# UILayout.Check.Structure

Attributes that an element must have, elements that it may not have, and the type that each of its
attributes has.

* `length_typeAttributes`: every attribute gets a typing.
-/

namespace UILayout
namespace Check

open Text Schema Markup

/-- The elements of a document that the schema knows, in document order. -/
def boundElements (doc : Document) : List (ElementId × Element × Binding) :=
  doc.descendants.filterMap fun id =>
    (doc.element? id).bind fun e => e.binding?.map fun b => (id, e, b)

def missingAttributes (t : ComplexType) (e : Element) : List Report :=
  (t.attributes.values.filter fun a => a.required && (e.attribute? a.name).isNone).map fun a =>
    .plain (.missingAttribute a.name) e.tagSpan

/-- The span of the tag behind the bracket that opens an element. -/
def tagNameSpan (e : Element) : Span := ⟨e.start + 1, e.start + 1 + e.tag.utf8ByteSize⟩

/-- The elements directly below an element that the schema does not know there. -/
def unknownElements (doc : Document) (id : ElementId) : List Report :=
  ((doc.below id).filterMap doc.element?).filterMap fun child =>
    if child.binding?.isNone then some (.plain (.unknownElement child.tag) (tagNameSpan child)) else none

def structureOf (s : Schema) (doc : Document) (id : ElementId) (e : Element) (b : Binding) :
    List Report :=
  ((s.complexTypes[b.type]?.map fun t => missingAttributes t e).getD []) ++ unknownElements doc id

/-- What an attribute is to the type of its element. -/
inductive Typing where
  | declared (type : SimpleTypeId)
  | wildcard (rule : Wildcard)
  | unknown
  deriving DecidableEq, Repr

def Typing.value? : Typing → Option SimpleTypeId
  | .declared type => some type
  | .wildcard rule => some rule.value
  | .unknown => none

/-- Types attributes in order. One without a definition uses up the first wildcard that is left. The
wildcards that are left at the end come with the answer. -/
def typeAttributes (t : ComplexType) (unused : List Wildcard) :
    List Attribute → List (Attribute × Typing) × List Wildcard
  | [] => ([], unused)
  | a :: rest =>
    match t.attributes.get? a.name, unused with
    | some defined, _ =>
      let more := typeAttributes t unused rest
      ((a, .declared defined.type) :: more.1, more.2)
    | none, rule :: left =>
      let more := typeAttributes t left rest
      ((a, .wildcard rule) :: more.1, more.2)
    | none, [] =>
      let more := typeAttributes t [] rest
      ((a, .unknown) :: more.1, more.2)

theorem length_typeAttributes (t : ComplexType) (unused : List Wildcard) (as : List Attribute) :
    (typeAttributes t unused as).1.length = as.length := by
  induction as generalizing unused with
  | nil => rfl
  | cons a rest ih =>
    cases h : t.attributes.get? a.name with
    | some defined => simp [typeAttributes, h, ih]
    | none => cases unused <;> simp [typeAttributes, h, ih]

/-- Tests the name of an attribute against the wildcard that it uses. -/
def wildcardName (s : Schema) (a : Attribute) (key : SimpleTypeId) : List Report :=
  if s.simpleTypes[key]?.any (·.builtin = .propertyName) then
    if (s.propertyNamed? a.name).isNone then [.plain (.unknownPropertyName a.name) a.nameSpan] else []
  else
    match s.checkValue a.name key with
    | .ok () => []
    | .error fault => [.plain (.invalidAttributeName a.name fault) a.nameSpan]

def unusedWildcards (s : Schema) (e : Element) (unused : List Wildcard) : List Report :=
  unused.map fun rule =>
    .plain (.unusedWildcard ((s.simpleTypes[rule.key]?.map (·.name)).getD "")) e.tagSpan

end Check
end UILayout
