import UILayout.Selector.Fault
import UILayout.Text.Bytes

/-!
# UILayout.Selector.Path

Path selectors: steps separated by slashes, each with the stretch of text it was read from.
A property bind is a path followed by a dot and a property name.
-/

namespace UILayout
namespace Selector

open Text

/-- A name as it stands in the expression. -/
structure Ident where
  text : String
  span : Span
  deriving DecidableEq, Repr

/-- What a parameter of `$ancestor[...]` tests. -/
inductive Filter where
  /-- The frame type of the ancestor has this name. -/
  | type
  /-- The frame type of the ancestor, or one of its classes, has this name. -/
  | ofType
  /-- The ancestor itself has this name. -/
  | name
  deriving DecidableEq, Repr

def Filter.ofKey? (key : String) : Option Filter :=
  if key = "type" then some .type
  else if key = "oftype" then some .ofType
  else if key = "name" then some .name
  else none

/-- One `key=value` of a parameter list. -/
structure Param where
  key : Ident
  value : Ident
  span : Span
  deriving DecidableEq, Repr

def Param.filter? (p : Param) : Option Filter := Filter.ofKey? p.key.text

/-- What one step of a path selects. -/
inductive Step where
  | child (name : Ident)
  | this
  | parent
  | root
  | layer
  | sibling (name : Ident)
  /-- The nearest ancestor that passes every test. -/
  | ancestor (params : List Param)
  | handle (name : Ident)
  deriving DecidableEq, Repr

namespace Step

def name? : Step → Option Ident
  | .child n | .sibling n | .handle n => some n
  | _ => none

def params : Step → List Param
  | .ancestor ps => ps
  | _ => []

/-- The reserved word a step starts with. -/
def keyword? : Step → Option String
  | .this => some "$this"
  | .parent => some "$parent"
  | .root => some "$root"
  | .sibling _ => some "$sibling"
  | .layer => some "$layer"
  | .ancestor _ => some "$ancestor"
  | .child _ | .handle _ => none

/-- The reserved words, without their leading `$`. -/
def keywords : List String := ["this", "parent", "root", "sibling", "layer", "ancestor"]

def isKeyword (word : String) : Bool := keywords.contains word

end Step

structure Fragment where
  step : Step
  span : Span
  deriving DecidableEq, Repr

structure Path where
  fragments : List Fragment
  span : Span
  problems : List Problem
  deriving DecidableEq, Repr

namespace Path

def isEmpty (p : Path) : Bool := p.fragments.isEmpty

def hasProblems (p : Path) : Bool := !p.problems.isEmpty

/-- The first fragment that touches an offset. -/
def fragmentAt? (p : Path) (offset : Nat) : Option Nat :=
  p.fragments.findIdx? (·.span.touches offset)

/-- The text of each fragment, cut out of the expression. -/
def fragmentTexts (p : Path) (text : List Char) : List String :=
  p.fragments.map fun f => String.ofList ((slice? text f.span.start f.span.stop).getD [])

end Path

/-- A path, a dot and a property name. The problems are those of the whole expression. -/
structure Bind where
  target : Path
  property? : Option Ident
  span : Span
  problems : List Problem
  deriving DecidableEq, Repr

def Bind.hasProblems (b : Bind) : Bool := !b.problems.isEmpty

end Selector
end UILayout
