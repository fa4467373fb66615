import UILayout.Namespace.Changes
import UILayout.Namespace.Lookup

/-!
# UILayout.Namespace.Sync

Keeping the namespace up to date. A document that has changed first takes back all that it has put
into the namespace and then puts in what it declares now; descs that are left without declarations
and children leave the tree after that, so a desc that is declared again keeps its number.
-/

namespace UILayout
namespace Namespace

open Schema Markup

/-- A namespace on its way from one revision to the next, and what has changed so far. -/
structure Edit where
  names : Namespace
  changes : Changes
  deriving Repr

namespace Edit

/-- Changes a desc, which counts as changed in this revision. -/
def modify (e : Edit) (id : DescId) (f : Desc → Desc) : Edit :=
  let revision := e.names.revision
  { e with names := { e.names with
      descs := e.names.descs.modify id fun d => { f d with changedAt := revision } } }

def noteChild (e : Edit) (id : DescId) : Edit :=
  { e with changes := { e.changes with children := e.changes.children.insert id } }

def noteSite (e : Edit) (id : DescId) : Edit :=
  { e with changes := { e.changes with sites := e.changes.sites.insert id } }

def noteRemoved (e : Edit) (id : DescId) : Edit :=
  { e with changes := { e.changes with removed := e.changes.removed.insert id } }

/-! ## Taking back -/

/-- Takes back the declarations of a desc that lie in a document. -/
def withdrawSites (document : DocumentId) (e : Edit) (id : DescId) : Edit :=
  match e.names.descs[id]? with
  | none => e
  | some d =>
    if (d.sitesIn document).isEmpty then e
    else
      (e.modify id fun d => { d with sites := d.sites.filter (·.element.document ≠ document) }).noteSite
        id

/-- Drops the values that stand in a document, and names that are left without any. -/
def dropFrom {α : Type} (site : α → ElementRef) (document : DocumentId) (m : NameMap (List α)) :
    NameMap (List α) :=
  m.filterMap fun _ values =>
    let rest := values.filter fun v => (site v).document ≠ document
    if rest.isEmpty then none else some rest

/-- Does any value stand in a document? -/
def anyFrom {α : Type} (site : α → ElementRef) (document : DocumentId) (m : NameMap (List α)) : Bool :=
  m.values.any fun values => values.any fun v => (site v).document = document

/-- Takes back all that a document has put in. The descs that it has declared stay in the tree for
now. -/
def withdraw (e : Edit) (document : DocumentId) (held : List DescId) : Edit :=
  let e := held.foldl (withdrawSites document) e
  let n := e.names
  { names := { n with
      constants := dropFrom (·.site) document n.constants
      handles := dropFrom (·.site) document n.handles
      documents := n.documents.erase document }
    changes := { e.changes with
      constants := e.changes.constants || anyFrom (·.site) document n.constants
      handles := e.changes.handles || anyFrom (·.site) document n.handles } }

/-- Lets a desc leave the tree if it is bare, and then its parent if that has become bare. -/
def climb (e : Edit) (id : DescId) : Edit :=
  match e.names.descs[id]? with
  | none => e
  | some d =>
    if d.live && d.kind ≠ .root && d.isBare then
      let descs := e.names.descs.modify id fun d => { d with live := false }
      let e := { e with names := { e.names with descs := descs } }.noteRemoved id
      match d.parent? with
      | none => e
      | some parent =>
        let e := (e.modify parent fun p => { p with children := p.children.erase d.name }).noteChild
          parent
        if parent < id then e.climb parent else e
    else e

/-- Lets all bare descs among `held` leave the tree, the last one first. -/
def prune (e : Edit) (held : List DescId) : Edit := held.reverse.foldl climb e

/-! ## Putting in -/

/-- The child of a name, which is made unless it is there. -/
def ensureChild (e : Edit) (parent : DescId) (name : String) (kind : DescKind) : Edit × DescId :=
  match e.names.descs[parent]? with
  | none => (e, parent)
  | some p =>
    match p.children.get? name with
    | some id => (e, id)
    | none =>
      let id := e.names.descs.size
      let descs := e.names.descs.push (p.childOf parent name kind e.names.revision)
      let e := { e with names := { e.names with descs := descs } }
      ((e.modify parent fun p => { p with children := p.children.put name id }).noteChild parent, id)

def declare (e : Edit) (id : DescId) (site : Site) : Edit :=
  (e.modify id fun d =>
    if d.sites.any (·.element = site.element) then d
    else { d with sites := d.sites ++ [site] }).noteSite id

def addConstant (e : Edit) (c : Constant) : Edit :=
  { names := { e.names with
      constants := e.names.constants.alter c.name fun cs => cs.getD [] ++ [c] }
    changes := { e.changes with constants := true } }

def addHandle (e : Edit) (h : Handle) : Edit :=
  { names := { e.names with handles := e.names.handles.alter h.name fun hs => hs.getD [] ++ [h] }
    changes := { e.changes with handles := true } }

end Edit

/-- What an element means to the namespace. -/
inductive Role where
  | desc (name : String) (kind : DescKind)
  | constant (name : String) (value : Attribute)
  | handle (name : String)
  | other
  deriving Repr

/-- Is the `val` attribute of a type a handle? -/
def holdsHandle (s : Schema) (type : ComplexTypeId) : Bool :=
  ((s.attributeType? type "val").bind (s.simpleTypes[·.type]?)).any (·.builtin = .handle)

/-- The role of an element. What needs a name has no role without one. -/
def Role.ofElement (s : Schema) (e : Element) (b : Binding) : Role :=
  let kind := s.slotKind b.slot
  match DescKind.ofSlot? kind, e.name? with
  | some descKind, some name => if name.isEmpty then .other else .desc name descKind
  | some _, none => .other
  | none, name? =>
    match kind with
    | .constant =>
      match name?, e.attribute? "val" with
      | some name, some value => .constant name value
      | _, _ => .other
    | .frameProperty =>
      match e.value? "val" with
      | some value => if holdsHandle s b.type && !value.isEmpty then .handle value else .other
      | none => .other
    | _ => .other

/-- A document on its way into the namespace. -/
structure Entering where
  edit : Edit
  here : Contribution

namespace Entering

def place (st : Entering) (id : ElementId) (p : Place) : Entering :=
  { st with here := { st.here with places := st.here.places.setIfInBounds id (some p) } }

/-- Declares a child of `scope`, and notes that the element stands in it. -/
def enter (st : Entering) (doc : Document) (id : ElementId) (e : Element) (scope : DescId)
    (name : String) (kind : DescKind) : Entering :=
  let made := st.edit.ensureChild scope name kind
  let edit := made.1.declare made.2 ⟨doc.ref id, e.start, e.binding?.map (·.type)⟩
  { edit := edit, here := { st.here with descs := st.here.descs ++ [made.2] } : Entering }.place id
    ⟨made.2, some made.2⟩

/-- Puts in what one element means, given the desc around it. -/
def add (s : Schema) (doc : Document) (st : Entering) (id : ElementId) (e : Element) (b : Binding)
    (scope : DescId) : Entering :=
  match Role.ofElement s e b with
  | .desc name kind => st.enter doc id e scope name kind
  | .constant name value =>
    { st with edit := st.edit.addConstant ⟨name, value.value, doc.ref id, value.valueSpan⟩ }.place id
      ⟨scope, none⟩
  | .handle name =>
    { st with edit := st.edit.addHandle ⟨name, scope, doc.ref id⟩ }.place id ⟨scope, none⟩
  | .other => st.place id ⟨scope, none⟩

/-- Puts in an element that is bound and whose parent has been put in; others mean nothing. -/
def step (s : Schema) (doc : Document) (st : Entering) (id : ElementId) : Entering :=
  match doc.element? id with
  | none => st
  | some e =>
    match e.binding?, e.parent?.bind st.here.place? with
    | some b, some p => st.add s doc id e b p.scope
    | _, _ => st

end Entering

/-- Puts in all that a document declares, if its root is bound. -/
def Edit.enter (s : Schema) (doc : Document) (edit : Edit) : Edit :=
  match doc.root? with
  | none => edit
  | some root =>
    match doc.element? root with
    | none => edit
    | some e =>
      if e.binding?.isSome then
        let start : Entering := ⟨edit, ⟨[], Array.replicate doc.size none⟩⟩
        let rooted := start.enter doc root e Namespace.root doc.name .file
        let st := (doc.subtree root).tail.foldl (Entering.step s doc) rooted
        { st.edit with names := { st.edit.names with
            documents := st.edit.names.documents.put doc.id st.here } }
      else edit

def heldBy (n : Namespace) (document : DocumentId) : List DescId :=
  ((n.documents.get? document).map (·.descs)).getD []

/-- The next revision, in which nothing has changed yet. -/
def edit (n : Namespace) : Edit := ⟨{ n with revision := n.revision + 1 }, .none⟩

/-- Brings the namespace up to date with a document. -/
def sync (s : Schema) (n : Namespace) (doc : Document) : Edit :=
  let held := n.heldBy doc.id
  ((n.edit.withdraw doc.id held).enter s doc).prune held

def remove (n : Namespace) (document : DocumentId) : Edit :=
  let held := n.heldBy document
  (n.edit.withdraw document held).prune held

end Namespace
end UILayout
