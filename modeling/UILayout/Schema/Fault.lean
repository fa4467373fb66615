import UILayout.Json.Decoder

/-!
# UILayout.Schema.Fault

Why a schema cannot be loaded.
-/

namespace UILayout
namespace Schema

/-- What a name in a definition stands for. -/
inductive Noun where
  | simpleType
  | complexType
  | frameClass
  | frameType
  | element
  deriving DecidableEq, Repr

def Noun.text : Noun → String
  | .simpleType => "simple type"
  | .complexType => "complex type"
  | .frameClass => "frame class"
  | .frameType => "frame type"
  | .element => "element"

inductive Fault where
  /-- The text is no definition. -/
  | format (fault : DecodeFault)
  | pattern (type : String)
  | duplicate (noun : Noun) (name : String)
  /-- A name that nothing has, and the entry that refers to it. -/
  | unknown (noun : Noun) (name source : String)
  | cycle (noun : Noun) (name : String)
  /-- A property that two classes of a frame type define. -/
  | duplicateProperty (frameType property : String)
  deriving DecidableEq, Repr

def Fault.message : Fault → String
  | .format _ => "Not a schema definition"
  | .pattern type => "Invalid pattern in simple type \"" ++ type ++ "\""
  | .duplicate noun name => "Duplicate " ++ noun.text ++ ": " ++ name
  | .unknown noun name source =>
    "Unknown " ++ noun.text ++ " \"" ++ name ++ "\" referenced from " ++ source
  | .cycle noun name => "Inheritance cycle through " ++ noun.text ++ " \"" ++ name ++ "\""
  | .duplicateProperty frameType property =>
    "Property \"" ++ property ++ "\" is defined more than once in frame type \"" ++ frameType ++ "\""

end Schema
end UILayout
