import UILayout.Hierarchy.Build
import UILayout.Selector.Path

/-!
# UILayout.Hierarchy.Select

What a path selects: each step leads from one node to another, until one leads nowhere.
-/

namespace UILayout
namespace Hierarchy

open Namespace Schema Selector

/-- The nodes around a node, the nearest first. -/
def ancestors (h : Hierarchy) (id : NodeId) : List NodeId :=
  match h.parent? id with
  | some parent => if parent < id then parent :: h.ancestors parent else []
  | none => []

def frameType? (ctx : Context) (h : Hierarchy) (id : NodeId) : Option FrameType :=
  ((h.node? id).bind (·.frameType?)).bind (ctx.schema.frameTypes[·]?)

def isFrame (h : Hierarchy) (id : NodeId) : Bool := (h.node? id).any (·.kind = .frame)

/-- The outermost frame around a node, or the node itself. -/
def layer? (h : Hierarchy) (id : NodeId) : Option NodeId :=
  ((id :: h.ancestors id).filter h.isFrame).getLast?

/-- Is a frame type of a kind? The kind is one of its classes, or a frame type whose own class is one
of its classes. -/
def isOfKind (s : Schema) (f : FrameType) (kind : String) : Bool :=
  f.hasClass s kind ||
    ((((s.frameTypeNamed? kind).bind (s.frameTypes[·]?)).bind (·.classes.head?)).bind
      (s.classes[·]?)).any fun c => f.hasClass s c.name

/-- Does a node pass a test? A test with a key that is not known fails. -/
def passes (ctx : Context) (h : Hierarchy) (id : NodeId) (p : Param) : Bool :=
  match p.filter? with
  | some .name => (h.node? id).any (·.name = p.value.text)
  | some .type => (h.frameType? ctx id).any (·.name = p.value.text)
  | some .ofType => (h.frameType? ctx id).any fun f => isOfKind ctx.schema f p.value.text
  | none => false

/-- Where a step leads from a node. A handle that is not registered is read as the name of a child;
a node is no sibling of itself. -/
def step (ctx : Context) (h : Hierarchy) (id : NodeId) : Step → Option NodeId × Hierarchy
  | .this => (some id, h)
  | .parent => (h.parent? id, h)
  | .root => (some h.rootNode.1, h.rootNode.2)
  | .layer => (h.layer? id, h)
  | .ancestor params => ((h.ancestors id).find? fun a => params.all (h.passes ctx a), h)
  | .child name => h.child ctx id name.text
  | .sibling name =>
    match h.parent? id with
    | none => (none, h)
    | some parent =>
      let found := h.child ctx parent name.text
      (found.1.filter (· ≠ id), found.2)
  | .handle name =>
    match ctx.names.handle? name.text with
    | some handle => h.ofDesc ctx handle.desc
    | none => h.child ctx id name.text

/-- The nodes that some steps select, up to the first that selects none. -/
def selectSteps (ctx : Context) (h : Hierarchy) (id : NodeId) :
    List Fragment → List NodeId × Hierarchy
  | [] => ([], h)
  | f :: rest =>
    match h.step ctx id f.step with
    | (some next, h) =>
      let more := selectSteps ctx h next rest
      (next :: more.1, more.2)
    | (none, h) => ([], h)

/-- The node of each step of a path, up to the first that leads nowhere. -/
structure Selection where
  chain : List NodeId
  steps : Nat
  deriving DecidableEq, Repr

namespace Selection

def isComplete (s : Selection) : Bool := 0 < s.steps && s.chain.length = s.steps

/-- The node of the last step, if there is one for every step. -/
def target? (s : Selection) : Option NodeId := if s.isComplete then s.chain.getLast? else none

end Selection

def select (ctx : Context) (h : Hierarchy) (id : NodeId) (path : Path) : Selection × Hierarchy :=
  let found := h.selectSteps ctx id path.fragments
  (⟨found.1, path.fragments.length⟩, found.2)

def childrenOfKind (ctx : Context) (h : Hierarchy) (id : NodeId) (kind : DescKind) :
    List NodeId × Hierarchy :=
  let made := h.children ctx id
  (made.1.filter fun c => (made.2.node? c).any (·.kind = kind), made.2)

end Hierarchy
end UILayout
