import UILayout.Text.Span

/-!
# UILayout.Selector.Fault

What can be wrong with a selector expression. A `Fault` is a cause; its code groups it with faults
of the same sort, and its message is the text shown to the author of the layout.

Codes: `E01xx` for characters, `E02xx` for structure, `E03xx` for missing names, `E04xx` for
parameters and properties.
-/

namespace UILayout
namespace Selector

open Text

inductive Code where
  | E0101
  | E0201
  | E0202
  | E0203
  | E0301
  | E0302
  | E0401
  | E0402
  | E0403
  deriving DecidableEq, Repr

def Code.name : Code → String
  | .E0101 => "E0101"
  | .E0201 => "E0201"
  | .E0202 => "E0202"
  | .E0203 => "E0203"
  | .E0301 => "E0301"
  | .E0302 => "E0302"
  | .E0401 => "E0401"
  | .E0402 => "E0402"
  | .E0403 => "E0403"

inductive Fault where
  | invalidCharacter (text : String)
  | unclosedBracket
  | missingSelector
  | missingSelectorAfterSlash
  | missingSelectorBeforeProperty
  | unexpected (text : String)
  | missingSiblingDash
  | missingSiblingName
  | missingPropertyName
  | missingParamName
  | missingEquals
  | missingParamValue
  | unknownParam (key : String)
  | missingProperty
  deriving DecidableEq, Repr

namespace Fault

def code : Fault → Code
  | .invalidCharacter _ => .E0101
  | .unclosedBracket => .E0201
  | .missingSelector | .missingSelectorAfterSlash | .missingSelectorBeforeProperty => .E0202
  | .unexpected _ => .E0203
  | .missingSiblingDash | .missingSiblingName => .E0301
  | .missingPropertyName => .E0302
  | .missingParamName | .missingEquals | .missingParamValue => .E0401
  | .unknownParam _ => .E0402
  | .missingProperty => .E0403

def message : Fault → String
  | .invalidCharacter text => "Invalid character \"" ++ text ++ "\""
  | .unclosedBracket => "Unclosed \"[\""
  | .missingSelector => "Expected selector"
  | .missingSelectorAfterSlash => "Expected selector after \"/\""
  | .missingSelectorBeforeProperty => "Expected selector before property name"
  | .unexpected text => "Unexpected \"" ++ text ++ "\""
  | .missingSiblingDash => "Expected \"-Name\" after $sibling"
  | .missingSiblingName => "Expected sibling name"
  | .missingPropertyName => "Expected property name"
  | .missingParamName => "Expected parameter name"
  | .missingEquals => "Expected \"=\""
  | .missingParamValue => "Expected parameter value"
  | .unknownParam key => "Unknown parameter \"" ++ key ++ "\""
  | .missingProperty => "Expected \".\" followed by a property name"

end Fault

/-- A fault and the stretch of the expression that it is about. -/
structure Problem where
  fault : Fault
  span : Span
  deriving DecidableEq, Repr

end Selector
end UILayout
