import UILayout.Namespace.Changes
import UILayout.Namespace.Lookup

/-!
# UILayout.Hierarchy.Node

The effective hierarchy: what descs contain once their links are followed. Nodes are made when they
are asked for and kept until the namespace changes; each node remembers the descs that it was made
from, so that it can be dropped when one of them changes.

* `mem_below`: the children of a node have larger numbers, so walking down ends.
-/

namespace UILayout

/-- Names a node: its position in the order of creation. -/
abbrev NodeId := Nat

namespace Hierarchy

open Namespace Schema

/-- What a node is, by the kind of its main desc. -/
inductive Detail where
  | root
  | file
  | frame (type? : Option FrameTypeId)
  /-- The elements that handle each event. -/
  | animation (events : NameMap (List ElementRef))
  /-- The elements that define each state. -/
  | stateGroup (default? : Option String) (states : NameMap (List ElementRef))
  deriving Repr

def Detail.kind : Detail → DescKind
  | .root => .root
  | .file => .file
  | .frame _ => .frame
  | .animation _ => .animation
  | .stateGroup .. => .stateGroup

/-- What is known about a child. -/
inductive Branch where
  /-- It has not been asked for; these descs would be merged into it. -/
  | pending (descs : List DescId)
  | built (node : NodeId)
  /-- One of its `file` attributes leads nowhere. -/
  | missing
  deriving Repr

structure Node where
  name : String
  /-- The first of the descs. -/
  main : DescId
  /-- The descs that are merged into the node. -/
  descs : List DescId
  parent? : Option NodeId
  detail : Detail
  /-- The descs and all that their links lead to. -/
  sources : List DescId
  /-- The descs that the node was made from. -/
  read : List DescId
  /-- By name, once one of them has been asked for. -/
  children? : Option (NameMap Branch)
  live : Bool
  deriving Repr

namespace Node

def root : Node :=
  { name := ""
    main := Namespace.root
    descs := [Namespace.root]
    parent? := none
    detail := .root
    sources := [Namespace.root]
    read := [Namespace.root]
    children? := none
    live := true }

def kind (n : Node) : DescKind := n.detail.kind

def frameType? (n : Node) : Option FrameTypeId :=
  match n.detail with
  | .frame type? => type?
  | _ => none

def builtChildren (n : Node) : List NodeId :=
  match n.children? with
  | none => []
  | some m => m.values.filterMap fun
    | .built id => some id
    | _ => none

end Node

end Hierarchy

open Hierarchy Namespace

/-- The nodes that have been made. -/
structure Hierarchy where
  nodes : Array Node
  root? : Option NodeId
  dropped : Nat
  deriving Repr

namespace Hierarchy

def empty : Hierarchy := ⟨#[], none, 0⟩

def node? (h : Hierarchy) (id : NodeId) : Option Node := h.nodes[id]?

def live? (h : Hierarchy) (id : NodeId) : Option Node := (h.nodes[id]?).filter (·.live)

def size (h : Hierarchy) : Nat := h.nodes.size - h.dropped

def parent? (h : Hierarchy) (id : NodeId) : Option NodeId := (h.node? id).bind (·.parent?)

def add (h : Hierarchy) (n : Node) : NodeId × Hierarchy :=
  (h.nodes.size, { h with nodes := h.nodes.push n })

def modify (h : Hierarchy) (id : NodeId) (f : Node → Node) : Hierarchy :=
  { h with nodes := h.nodes.modify id f }

/-- The live children of a node that have been made. -/
def below (h : Hierarchy) (id : NodeId) : List NodeId :=
  ((h.node? id).map (·.builtChildren)).getD [] |>.filter fun child =>
    id < child && child < h.nodes.size && (h.live? child).isSome

theorem mem_below {h : Hierarchy} {id child : Nat} (hc : child ∈ h.below id) :
    id < child ∧ child < h.nodes.size := by
  unfold below at hc
  simp only [List.mem_filter, Bool.and_eq_true, decide_eq_true_eq] at hc
  exact ⟨hc.2.1.1, hc.2.1.2⟩

/-- A node and all live nodes below it. -/
def subtree (h : Hierarchy) (id : NodeId) : List NodeId :=
  id :: (h.below id).attach.flatMap fun ⟨child, hc⟩ =>
    have := mem_below hc
    h.subtree child
  termination_by h.nodes.size - id

/-! ## Dropping nodes -/

def drop (h : Hierarchy) (id : NodeId) : Hierarchy :=
  if (h.live? id).isSome then
    { h.modify id fun n => { n with live := false, read := [], children? := none } with
      dropped := h.dropped + 1 }
  else h

/-- Makes the node that lies below `parent` under a name unmade. -/
def reopen (h : Hierarchy) (parent : NodeId) (name : String) (descs : List DescId) : Hierarchy :=
  h.modify parent fun p => { p with
    children? := p.children?.map fun m => if m.contains name then m.put name (.pending descs) else m }

/-- Drops a live node with all below it, so that its parent makes it anew when asked. -/
def detach (h : Hierarchy) (id : NodeId) : Hierarchy :=
  match h.live? id with
  | none => h
  | some n =>
    let doomed := h.subtree id
    let h :=
      match n.parent? with
      | some parent => h.reopen parent n.name n.descs
      | none => { h with root? := none }
    doomed.foldl drop h

/-- So many dropped nodes are kept before they are swept out. -/
def sweepLimit : Nat := 4096

/-- The live nodes that were made from something that has changed. -/
def staleNodes (h : Hierarchy) (changes : Changes) : List NodeId :=
  (h.nodes.toList.zipIdx.filter fun e => e.1.live && e.1.read.any changes.touches).map (·.2)

/-- Drops what was made from something that has changed. When most nodes are dropped ones, the
others go too. -/
def invalidate (h : Hierarchy) (changes : Changes) : Hierarchy :=
  if changes.isEmpty || h.nodes.isEmpty then h
  else
    let h := (h.staleNodes changes).foldl detach h
    if sweepLimit < h.dropped ∧ h.nodes.size < h.dropped * 2 then .empty else h

end Hierarchy

end UILayout
