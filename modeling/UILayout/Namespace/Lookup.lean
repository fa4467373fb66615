import UILayout.Namespace.Constant
import UILayout.Text.Split

/-!
# UILayout.Namespace.Lookup

The namespace of all documents, and how things are found in it. Descs are kept by number; one that
has left the tree keeps its number, so a number never comes to mean another desc.

* `length_erase_key_lt`: following constants ends, as each is met at most once.
-/

namespace UILayout
namespace Namespace

/-- Where an element stands. -/
structure Place where
  /-- The innermost desc around the element, its own if it declares one. -/
  scope : DescId
  declares? : Option DescId
  deriving DecidableEq, Repr

/-- What one document has put into the namespace. -/
structure Contribution where
  /-- The descs that it declares, once for each declaration. -/
  descs : List DescId
  /-- By element. -/
  places : Array (Option Place)
  deriving Repr

def Contribution.place? (c : Contribution) (element : ElementId) : Option Place :=
  (c.places[element]?).join

end Namespace

open Namespace

structure Namespace where
  descs : Array Desc
  constants : NameMap (List Constant)
  handles : NameMap (List Handle)
  documents : OrderedMap DocumentId Contribution
  /-- How often the namespace has changed. -/
  revision : Nat
  deriving Repr

namespace Namespace

def empty : Namespace := ⟨#[.root], .empty, .empty, .empty, 0⟩

def root : DescId := 0

/-- A desc that is part of the tree. -/
def live? (n : Namespace) (id : DescId) : Option Desc := (n.descs[id]?).filter (·.live)

/-- All descs of the tree, in the order of creation. -/
def liveDescs (n : Namespace) : List (DescId × Desc) :=
  (n.descs.toList.zipIdx.filter (·.1.live)).map fun e => (e.2, e.1)

def kind? (n : Namespace) (id : DescId) : Option DescKind := n.descs[id]?.map (·.kind)

def child? (n : Namespace) (id : DescId) (name : String) : Option DescId :=
  (n.live? id).bind (·.children.get? name)

def follow? (n : Namespace) (id : DescId) : List String → Option DescId
  | [] => some id
  | name :: rest => (n.child? id name).bind fun child => n.follow? child rest

/-- Follows a path down from the root. -/
def lookup? (n : Namespace) (path : String) : Option DescId :=
  n.follow? root (Text.pathNames path)

def place? (n : Namespace) (e : ElementRef) : Option Place :=
  (n.documents.get? e.document).bind (·.place? e.element)

def declared? (n : Namespace) (e : ElementRef) : Option DescId :=
  (n.place? e).bind (·.declares?)

/-- The innermost desc around an element. -/
def scope? (n : Namespace) (e : ElementRef) : Option DescId := (n.place? e).map (·.scope)

def constant? (n : Namespace) (name : String) : Option Constant :=
  (n.constants.get? name).bind (·.head?)

/-- The constant of a name, or else the first of those that belong to a race. -/
def racialConstant? (n : Namespace) (name : String) : Option Constant :=
  (n.constant? name).or (raceSuffixes.findSome? fun suffix => n.constant? (name ++ suffix))

def resolve? (n : Namespace) : Reference → Option Constant
  | .exact name => n.constant? name
  | .racial name => n.racialConstant? name

theorem length_erase_key_lt {free : List String} {name : String} (h : name ∈ free) :
    (free.erase name).length < free.length := by
  have := List.length_pos_of_mem h
  rw [List.length_erase_of_mem h]
  omega

/-- The constants from `c` on, each standing for the next; `none` when one stands for nothing, or
when one comes back. `free` holds the names that have not come yet. -/
def constantsFrom? (n : Namespace) (free : List String) (c : Constant) : Option (List Constant) :=
  if _h : c.name ∈ free then
    match c.reference? with
    | none => some [c]
    | some r =>
      match n.resolve? r with
      | none => none
      | some next => (n.constantsFrom? (free.erase c.name) next).map (c :: ·)
  else none
  termination_by free.length
  decreasing_by exact length_erase_key_lt _h

/-- The constants that a name leads through; the last one has the literal value. -/
def constantChain? (n : Namespace) (name : String) : Option (List Constant) :=
  (n.constant? name).bind (n.constantsFrom? n.constants.keys)

def constantValue? (n : Namespace) (name : String) : Option String :=
  ((n.constantChain? name).bind (·.getLast?)).map (·.value)

/-- The first handle of a name whose desc is part of the tree. -/
def handle? (n : Namespace) (name : String) : Option Handle :=
  (n.handles.get? name).bind fun handles => handles.find? fun h => (n.live? h.desc).isSome

def allHandles (n : Namespace) : List Handle := n.handles.values.flatten

end Namespace
end UILayout
