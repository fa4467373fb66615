import UILayout.Hierarchy.Links
import UILayout.Hierarchy.Node

/-!
# UILayout.Hierarchy.Build

Making nodes. A node is made from descs of one name: it has what they declare and what their links
lead to. Its children are the children of all of these by name, so descs of one name below different
sources are merged into one child.

Every function here answers with the nodes that have been made by then.
-/

namespace UILayout
namespace Hierarchy

open Namespace Schema Markup

/-- Groups the children of some descs by name, in the order in which they are found. -/
def groupChildren (n : Namespace) (sources : List DescId) : NameMap (List DescId) :=
  let children := (sources.filterMap n.live?).flatMap (·.children.entries)
  children.foldl (fun m e => m.alter e.1 fun ids? =>
    let ids := ids?.getD []
    if ids.contains e.2 then ids else ids ++ [e.2]) .empty

/-- The bound children of the elements that declare some descs, with the kinds of their slots. -/
def parts (ctx : Context) (sources : List DescId) : List (SlotKind × ElementRef × Element) :=
  (sources.filterMap ctx.names.live?).flatMap fun d =>
    d.sites.flatMap fun site =>
      match ctx.document? site.element.document with
      | none => []
      | some doc => (doc.below site.element.element).filterMap fun child =>
        (doc.element? child).bind fun e =>
          e.binding?.map fun b => (ctx.schema.slotKind b.slot, doc.ref child, e)

/-- Groups elements by name; one without a name is passed over. -/
def groupElements (es : List (Option String × ElementRef)) : NameMap (List ElementRef) :=
  es.foldl (fun m e =>
    match e.1 with
    | some name => m.alter name fun refs? => refs?.getD [] ++ [e.2]
    | none => m) .empty

def detailOf (ctx : Context) (main : DescId) (sources : List DescId) : Detail :=
  let ofKind (kind : SlotKind) : List (ElementRef × Element) :=
    (parts ctx sources).filterMap fun p => if p.1 = kind then some p.2 else none
  match ctx.names.kind? main with
  | some .file => .file
  | some .frame =>
    .frame ((ctx.names.descs[main]?.bind (·.type?)).bind ctx.schema.frameTypeOf?)
  | some .animation =>
    .animation (groupElements ((ofKind .animationEvent).map fun p => (p.2.value? "event", p.1)))
  | some .stateGroup =>
    .stateGroup ((ofKind .stateGroupDefaultState).filterMap fun p => p.2.value? "val").getLast?
      (groupElements ((ofKind .stateGroupState).map fun p => (p.2.name?, p.1)))
  | _ => .root

/-- The node that some descs make below a parent; without one, what was read to find that out. -/
def makeNode (ctx : Context) (name : String) (descs : List DescId) (parent : NodeId) :
    Except (List DescId) Node :=
  let reach := Reach.ofDescs ctx descs
  match descs with
  | [] => .error reach.read
  | main :: _ =>
    if reach.broken then .error reach.read
    else
      .ok
        { name := name
          main := main
          descs := descs
          parent? := some parent
          detail := detailOf ctx main reach.sources
          sources := reach.sources
          read := reach.read
          children? := none
          live := true }

def rootNode (h : Hierarchy) : NodeId × Hierarchy :=
  match h.root?.filter fun r => (h.live? r).isSome with
  | some r => (r, h)
  | none =>
    let made := h.add .root
    (made.1, { made.2 with root? := some made.1 })

/-- Lists the children of a node, without making them. -/
def expand (ctx : Context) (h : Hierarchy) (id : NodeId) : Hierarchy :=
  h.modify id fun n =>
    match n.children? with
    | some _ => n
    | none => { n with children? := some ((groupChildren ctx.names n.sources).map .pending) }

def setBranch (h : Hierarchy) (id : NodeId) (name : String) (b : Branch) : Hierarchy :=
  h.modify id fun n => { n with children? := n.children?.map (·.put name b) }

/-- What is known about the child of a name. -/
def branch? (h : Hierarchy) (id : NodeId) (name : String) : Option Branch :=
  (h.node? id).bind fun n => n.children?.bind (·.get? name)

/-- The child of a name, which is made unless it is there. -/
def child (ctx : Context) (h : Hierarchy) (id : NodeId) (name : String) :
    Option NodeId × Hierarchy :=
  let h := h.expand ctx id
  match h.branch? id name with
  | none => (none, h)
  | some .missing => (none, h)
  | some (.built node) => (some node, h)
  | some (.pending descs) =>
    match makeNode ctx name descs id with
    | .ok n =>
      let made := h.add n
      (some made.1, made.2.setBranch id name (.built made.1))
    | .error read =>
      let h := h.modify id fun n => { n with read := n.read ++ read }
      (none, h.setBranch id name .missing)

def childrenNamed (ctx : Context) (h : Hierarchy) (id : NodeId) :
    List String → List NodeId × Hierarchy
  | [] => ([], h)
  | name :: rest =>
    let made := h.child ctx id name
    let more := childrenNamed ctx made.2 id rest
    (made.1.toList ++ more.1, more.2)

/-- All children, in the order of their names in the node. -/
def children (ctx : Context) (h : Hierarchy) (id : NodeId) : List NodeId × Hierarchy :=
  let h := h.expand ctx id
  let names := ((h.node? id).bind (·.children?)).map (·.keys)
  h.childrenNamed ctx id (names.getD [])

def descend (ctx : Context) (h : Hierarchy) (id : NodeId) : List String → Option NodeId × Hierarchy
  | [] => (some id, h)
  | name :: rest =>
    match h.child ctx id name with
    | (some node, h) => descend ctx h node rest
    | (none, h) => (none, h)

/-- The names from the root of the namespace down to a desc, the last one first; all descs on the way
must be in the tree. -/
def namesUp? (n : Namespace) (id : DescId) : Option (List String) :=
  (n.live? id).bind fun d =>
    if d.kind = .root then some []
    else
      match d.parent? with
      | none => some [d.name]
      | some parent => if parent < id then (namesUp? n parent).map (d.name :: ·) else none

/-- The node that a desc has part in, found by following its path from the root. -/
def ofDesc (ctx : Context) (h : Hierarchy) (id : DescId) : Option NodeId × Hierarchy :=
  match namesUp? ctx.names id with
  | none => (none, h)
  | some names =>
    let made := h.rootNode
    made.2.descend ctx made.1 names.reverse

end Hierarchy
end UILayout
