import UILayout.Hierarchy.Select

/-!
# UILayout.Hierarchy.Resolve

The descs that a path stands for, seen from a desc. A path from `$root` names a file and something
in it, and these two are looked up in the namespace; from there on, and for all other paths, the
steps select nodes, and the descs are those of the nodes.
-/

namespace UILayout
namespace Hierarchy

open Namespace Selector

/-- The descs of each step, up to the first that leads nowhere. -/
structure Resolution where
  items : List (List DescId)
  steps : Nat
  deriving DecidableEq, Repr

namespace Resolution

def isComplete (r : Resolution) : Bool := 0 < r.steps && r.items.length = r.steps

/-- The first desc of the last step, if there are descs for every step. -/
def target? (r : Resolution) : Option DescId :=
  if r.isComplete then r.items.getLast?.bind (·.head?) else none

end Resolution

/-- The descs of the nodes that some steps select from the node of a desc. -/
def resolveFrom (ctx : Context) (h : Hierarchy) (id : DescId) (fragments : List Fragment) :
    List (List DescId) × Hierarchy :=
  if fragments.isEmpty then ([], h)
  else
    match h.ofDesc ctx id with
    | (none, h) => ([], h)
    | (some node, h) =>
      let selected := h.selectSteps ctx node fragments
      (selected.1.map fun n => ((selected.2.node? n).map (·.descs)).getD [], selected.2)

/-- How many names behind `$root` are looked up in the namespace. -/
def rootedSteps : Nat := 2

/-- The descs of steps that are looked up in the namespace, at most `bound` of them, and of the steps
behind them. -/
def resolveNames (ctx : Context) (h : Hierarchy) (id : DescId) :
    Nat → List Fragment → List (List DescId) × Hierarchy
  | _, [] => ([], h)
  | 0, fragments => h.resolveFrom ctx id fragments
  | bound + 1, f :: rest =>
    match f.step with
    | .child name =>
      match ctx.names.child? id name.text with
      | some next =>
        let more := resolveNames ctx h next bound rest
        ([next] :: more.1, more.2)
      | none => ([], h)
    | _ => ([], h)

/-- The descs that a path stands for, seen from `id`. -/
def resolve (ctx : Context) (h : Hierarchy) (id : DescId) (path : Path) : Resolution × Hierarchy :=
  let found : List (List DescId) × Hierarchy :=
    match path.fragments with
    | [] => ([], h)
    | f :: rest =>
      match f.step with
      | .root =>
        let more := h.resolveNames ctx Namespace.root rootedSteps rest
        ([Namespace.root] :: more.1, more.2)
      | _ => h.resolveFrom ctx id (f :: rest)
  (⟨found.1, path.fragments.length⟩, found.2)

end Hierarchy
end UILayout
