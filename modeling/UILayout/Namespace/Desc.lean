import UILayout.Markup.Document
import UILayout.OrderedMap
import UILayout.Schema.Table

/-!
# UILayout.Namespace.Desc

Descs: the things that documents declare by name. All documents together make one tree of them: below
its root stands a file for every document, and below that every frame, animation and state group
under the name of its declaration. Declarations of one name at one place share a desc.
-/

namespace UILayout

/-- Names a desc: its position in the order of creation. -/
abbrev DescId := Nat

namespace Namespace

open Schema

inductive DescKind where
  | root
  | file
  | frame
  | animation
  | stateGroup
  deriving DecidableEq, Repr

namespace DescKind

def all : List DescKind := [.root, .file, .frame, .animation, .stateGroup]

/-- What an element in a slot declares. -/
def ofSlot? : SlotKind → Option DescKind
  | .frame => some .frame
  | .animation => some .animation
  | .stateGroup => some .stateGroup
  | _ => none

def name : DescKind → String
  | .root => "Root"
  | .file => "File"
  | .frame => "Frame"
  | .animation => "Animation"
  | .stateGroup => "StateGroup"

theorem isSome_ofSlot? (k : SlotKind) : (ofSlot? k).isSome = k.declares := by
  cases k <;> rfl

end DescKind

/-- An element that declares a desc. -/
structure Site where
  element : ElementRef
  start : Nat
  type? : Option ComplexTypeId
  deriving DecidableEq, Repr

structure Desc where
  name : String
  kind : DescKind
  /-- The names from the root down to the desc, with slashes between them. -/
  path : String
  parent? : Option DescId
  children : NameMap DescId
  sites : List Site
  /-- The file that the desc lies in; a file lies in none. -/
  file? : Option String
  /-- The revision of the namespace that changed the desc last. -/
  changedAt : Nat
  /-- Is the desc part of the tree? One that has left it stays behind and never comes back. -/
  live : Bool
  deriving Repr

namespace Desc

def root : Desc := ⟨"", .root, "", none, .empty, [], none, 0, true⟩

/-- The first type that a declaration has. -/
def type? (d : Desc) : Option ComplexTypeId := d.sites.findSome? (·.type?)

def sitesIn (d : Desc) (document : DocumentId) : List Site :=
  d.sites.filter (·.element.document = document)

/-- A desc without declarations and children has no reason to be in the tree. -/
def isBare (d : Desc) : Bool := d.sites.isEmpty && d.children.isEmpty

def childOf (d : Desc) (id : DescId) (name : String) (kind : DescKind) (revision : Nat) : Desc :=
  { name := name
    kind := kind
    path := if d.path.isEmpty then name else d.path ++ "/" ++ name
    parent? := some id
    children := .empty
    sites := []
    file? :=
      match d.kind with
      | .root => none
      | .file => some d.name
      | _ => d.file?
    changedAt := revision
    live := true }

end Desc

end Namespace
end UILayout
