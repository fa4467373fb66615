import UILayout.Markup.Attribute

/-!
# UILayout.Markup.Document

Element trees of layout documents. Elements are numbered in the order in which they are added; a
parent is added before its children, so an element number is larger than its parent's. The first
element without a parent is the root.

* `below_lt`: walking down, numbers grow, so every walk over a tree ends.
-/

namespace UILayout

abbrev DocumentId := Nat

/-- Names an element of one document: its position in the order of addition. -/
abbrev ElementId := Nat

/-- An element of one of several documents. -/
structure ElementRef where
  document : DocumentId
  element : ElementId
  deriving DecidableEq, Repr

namespace Markup

open Text

/-- What a schema says about an element: the slot it fills and the type it has there. -/
structure Binding where
  slot : Nat
  type : Nat
  deriving DecidableEq, Repr

structure Element where
  tag : String
  start : Nat
  stop : Nat
  /-- Just behind the start tag. -/
  tagStop : Nat
  closed : Bool
  attributes : List Attribute
  children : List ElementId
  parent? : Option ElementId
  binding? : Option Binding
  deriving Repr

namespace Element

/-- An element whose end is not known yet. -/
def opened (tag : String) (start : Nat) : Element :=
  ⟨tag, start, start, start, false, [], [], none, none⟩

def attribute? (e : Element) (name : String) : Option Attribute :=
  e.attributes.find? (·.name = name)

def value? (e : Element) (name : String) : Option String := (e.attribute? name).map (·.value)

def name? (e : Element) : Option String := e.value? "name"

/-- Puts an attribute behind the others, or in the place of the one that has its name. -/
def setAttribute (e : Element) (a : Attribute) : Element :=
  { e with attributes :=
      if e.attributes.any (·.name = a.name) then
        e.attributes.map fun b => if b.name = a.name then a else b
      else e.attributes ++ [a] }

def span (e : Element) : Span := .cover e.start e.stop

def tagSpan (e : Element) : Span := .cover e.start e.tagStop

end Element

structure Document where
  id : DocumentId
  path : String
  elements : Array Element
  root? : Option ElementId
  deriving Repr

namespace Document

def empty (id : DocumentId) (path : String) : Document := ⟨id, path, #[], none⟩

/-- The last part of a path, without what follows its last dot unless that comes first. -/
def stemOfPath (path : String) : String :=
  let file := (path.toList.reverse.takeWhile fun c => c ≠ '/' && c ≠ '\\').reverse
  let stem := (file.reverse.dropWhile (· ≠ '.')).drop 1
  String.ofList (if stem.isEmpty then file else stem.reverse)

def name (doc : Document) : String := stemOfPath doc.path

def size (doc : Document) : Nat := doc.elements.size

def element? (doc : Document) (id : ElementId) : Option Element := doc.elements[id]?

def ref (doc : Document) (id : ElementId) : ElementRef := ⟨doc.id, id⟩

def push (doc : Document) (parent? : Option ElementId) (e : Element) : Document × ElementId :=
  let id := doc.elements.size
  let elements := doc.elements.push { e with parent? := parent? }
  match parent? with
  | some parent =>
    ({ doc with elements := elements.modify parent fun p => { p with children := p.children ++ [id] } },
      id)
  | none => ({ doc with elements := elements, root? := doc.root?.or (some id) }, id)

def modify (doc : Document) (id : ElementId) (f : Element → Element) : Document :=
  { doc with elements := doc.elements.modify id f }

def below (doc : Document) (id : ElementId) : List ElementId :=
  match doc.element? id with
  | some e => e.children.filter fun child => id < child && child < doc.size
  | none => []

theorem below_lt {doc : Document} {id child : Nat} (h : child ∈ doc.below id) :
    id < child ∧ child < doc.size := by
  unfold below at h
  split at h
  · simp_all
  · simp at h

/-- An element and all below it, each before its children. -/
def subtree (doc : Document) (id : ElementId) : List ElementId :=
  id :: (doc.below id).attach.flatMap fun ⟨child, h⟩ =>
    have := below_lt h
    doc.subtree child
  termination_by doc.size - id

/-- All elements of the tree in document order. -/
def descendants (doc : Document) : List ElementId :=
  match doc.root? with
  | some root => doc.subtree root
  | none => []

/-- The elements around an element, the nearest first. -/
def ancestors (doc : Document) (id : ElementId) : List ElementId :=
  match (doc.element? id).bind (·.parent?) with
  | some parent => if parent < id then parent :: doc.ancestors parent else []
  | none => []

def touches (doc : Document) (offset : Nat) (id : ElementId) : Bool :=
  (doc.element? id).any (·.span.touches offset)

/-- The innermost element at an offset, of those in or below `id`: the first child that touches it
is followed. -/
def innermost (doc : Document) (offset : Nat) (id : ElementId) : ElementId :=
  match _h : (doc.below id).find? (doc.touches offset) with
  | some child => doc.innermost offset child
  | none => id
  termination_by doc.size - id
  decreasing_by
    have := below_lt (List.mem_of_find?_eq_some _h)
    omega

/-- The innermost element whose span touches an offset. -/
def elementAt? (doc : Document) (offset : Nat) : Option ElementId :=
  (doc.root?.filter (doc.touches offset)).map (doc.innermost offset)

end Document

end Markup
end UILayout
