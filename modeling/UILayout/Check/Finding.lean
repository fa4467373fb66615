import UILayout.Check.Diagnostic
import UILayout.Schema.Value

/-!
# UILayout.Check.Finding

What can be wrong with a layout. A `Finding` is a cause; its code, its severity and its message
follow from it.

Codes: `E00xx` for elements and attributes that the schema does not accept, `E01xx` to `E04xx` for
the syntax of selector expressions, `E05xx` for names that lead nowhere or to the wrong thing.
-/

namespace UILayout
namespace Check

open Text Schema

inductive Finding where
  | invalidValue (name : String) (fault : ValueFault)
  | missingAttribute (name : String)
  | unknownAttribute (name : String)
  | unknownElement (tag : String)
  /-- A wildcard that no attribute has used; `key` is the simple type of its names. -/
  | unusedWildcard (key : String)
  /-- A wildcard accepts names of properties only, and this is none. -/
  | unknownPropertyName (name : String)
  | invalidAttributeName (name : String) (fault : ValueFault)
  | undeclaredConstant (value : String)
  /-- A bind to a property that no frame class has. -/
  | unknownBoundProperty (name : String)
  | emptyPath
  | templateNotFound (path : String)
  | templateIsFile
  | unresolvedPath (path : String)
  /-- A path that leads to a desc without the class that is asked for. -/
  | wrongClass (found frameClass : String)
  | fileNotFound (file : String)
  | notInFile (name file : String)
  /-- An element declares a desc that an earlier one of the document has declared. -/
  | redeclared (path : String)
  | selector (fault : Selector.Fault)
  deriving DecidableEq, Repr

namespace Finding

def code : Finding → String
  | .invalidValue .. => "E0001"
  | .missingAttribute _ => "E0002"
  | .unknownAttribute _ => "E0003"
  | .unknownElement _ => "E0004"
  | .unusedWildcard _ => "E0005"
  | .unknownPropertyName _ | .invalidAttributeName .. => "E0006"
  | .undeclaredConstant _ => "E0501"
  | .unknownBoundProperty _ => "E0502"
  | .emptyPath => "E0503"
  | .templateNotFound _ => "E0504"
  | .templateIsFile => "E0505"
  | .unresolvedPath _ => "E0506"
  | .wrongClass .. => "E0507"
  | .fileNotFound _ => "E0508"
  | .notInFile .. => "E0509"
  | .redeclared _ => "E0510"
  | .selector fault => fault.code.name

def severity : Finding → Severity
  | .unknownAttribute _ | .unknownElement _ | .unknownPropertyName _ | .invalidAttributeName ..
  | .unknownBoundProperty _ => .message
  | _ => .error

def message : Finding → String
  | .invalidValue name fault => "Invalid value for \"" ++ name ++ "\": " ++ fault.message
  | .missingAttribute name => "Missing required attribute \"" ++ name ++ "\""
  | .unknownAttribute name => "Unknown attribute \"" ++ name ++ "\""
  | .unknownElement tag => "Unknown element \"" ++ tag ++ "\""
  | .unusedWildcard key => "Missing special attribute [" ++ key ++ "]"
  | .unknownPropertyName name => "Unknown property \"" ++ name ++ "\""
  | .invalidAttributeName name fault =>
    "Invalid attribute name \"" ++ name ++ "\": " ++ fault.message
  | .undeclaredConstant value => "Undeclared constant \"" ++ value ++ "\""
  | .unknownBoundProperty name =>
    "Unknown property \"" ++ name ++ "\" in property bind expression"
  | .emptyPath => "Path not specified"
  | .templateNotFound path => "Could not find template \"" ++ path ++ "\""
  | .templateIsFile => "Cannot use FileDesc as template"
  | .unresolvedPath path => "Couldn't find matching desc for \"" ++ path ++ "\""
  | .wrongClass found frameClass =>
    "Specified desc of type \"" ++ found ++ "\" is not a descendant of \"" ++ frameClass ++ "\""
  | .fileNotFound file => "Failed to locate specified File Desc \"" ++ file ++ "\""
  | .notInFile name file =>
    "Failed to locate specified Desc \"" ++ name ++ "\" in File Desc \"" ++ file ++ "\""
  | .redeclared path =>
    "Child redeclared - element with that name already exists: \"" ++ path ++ "\""
  | .selector fault => fault.message

/-- Findings about the elements and attributes that an element must have or may not have come before
all others. -/
def isStructural : Finding → Bool
  | .missingAttribute _ | .unknownElement _ => true
  | _ => false

end Finding

/-- A finding, where it is, and where else to look. -/
structure Report where
  finding : Finding
  span : Span
  related : List Related
  deriving DecidableEq, Repr

namespace Report

def plain (finding : Finding) (span : Span) : Report := ⟨finding, span, []⟩

def diagnostic (r : Report) : Diagnostic :=
  ⟨r.span, r.finding.severity, some r.finding.code, r.finding.message, r.related⟩

end Report

end Check
end UILayout
