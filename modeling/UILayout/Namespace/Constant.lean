import UILayout.Markup.Value
import UILayout.Namespace.Desc

/-!
# UILayout.Namespace.Constant

Constants and handles: names that are not part of the tree of descs. A constant may stand for another
one; a handle is another name for the desc around it.
-/

namespace UILayout
namespace Namespace

open Text Markup

/-- How a value names a constant. -/
inductive Reference where
  | exact (name : String)
  /-- The constant of this name, or else the first of those that belong to a race. -/
  | racial (name : String)
  deriving DecidableEq, Repr

namespace Reference

def name : Reference → String
  | .exact name | .racial name => name

/-- A value that names a constant has one character before the name. -/
def ofValue? (value : String) : Option Reference :=
  let name := String.ofList (value.toList.drop 1)
  match ValueForm.ofText value.toList with
  | .constant => some (.exact name)
  | .racialConstant => some (.racial name)
  | _ => none

end Reference

structure Constant where
  name : String
  value : String
  site : ElementRef
  span : Span
  deriving DecidableEq, Repr

def Constant.reference? (c : Constant) : Option Reference := Reference.ofValue? c.value

structure Handle where
  name : String
  desc : DescId
  site : ElementRef
  deriving DecidableEq, Repr

/-- What a race appends to the names of its constants, in the order in which they are tried. -/
def raceSuffixes : List String := ["_Prot", "_Zerg", "_Terr"]

end Namespace
end UILayout
