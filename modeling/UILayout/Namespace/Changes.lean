import UILayout.Namespace.Desc

/-!
# UILayout.Namespace.Changes

What an edit of the namespace has changed, for those who remember what they read from it.
-/

namespace UILayout
namespace Namespace

structure Changes where
  /-- Descs that have gained or lost a child. -/
  children : List DescId
  /-- Descs that have gained or lost a declaration. -/
  sites : List DescId
  /-- Descs that have left the tree. -/
  removed : List DescId
  constants : Bool
  handles : Bool
  deriving DecidableEq, Repr

namespace Changes

def none : Changes := ⟨[], [], [], false, false⟩

def isEmpty (c : Changes) : Bool :=
  c.children.isEmpty && c.sites.isEmpty && c.removed.isEmpty && !c.constants && !c.handles

def touches (c : Changes) (id : DescId) : Bool :=
  c.children.contains id || c.sites.contains id || c.removed.contains id

end Changes

end Namespace
end UILayout
