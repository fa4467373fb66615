/-!
# UILayout.Schema.Kind

The kinds that schemas build on: how a simple type tests values, what a simple type is made of, and
what an element is for.
-/

namespace UILayout
namespace Schema

/-- How a simple type tests its values. -/
inductive SimpleKind where
  | default
  | enumeration
  | flags
  | pattern
  | union
  deriving DecidableEq, Repr

namespace SimpleKind

def all : List SimpleKind := [.default, .enumeration, .flags, .pattern, .union]

def name : SimpleKind → String
  | .default => "default"
  | .enumeration => "enumeration"
  | .flags => "flags"
  | .pattern => "pattern"
  | .union => "union"

end SimpleKind

/-- What a simple type is made of, or refers to. -/
inductive Builtin where
  | unknown
  | uint8
  | uint16
  | uint32
  | uint64
  | int8
  | int16
  | int32
  | int64
  | real32
  | string
  | boolean
  | fileDescName
  | descName
  | descTemplateName
  | frameReference
  | animationName
  | eventName
  | stateGroupName
  | stateGroupStateName
  | propertyName
  | propertyValue
  | mixed
  | image
  | color
  | text
  | hotkey
  | sound
  | style
  | handle
  | constantName
  | descInternal
  deriving DecidableEq, Repr

namespace Builtin

def all : List Builtin :=
  [.unknown, .uint8, .uint16, .uint32, .uint64, .int8, .int16, .int32, .int64, .real32, .string,
    .boolean, .fileDescName, .descName, .descTemplateName, .frameReference, .animationName,
    .eventName, .stateGroupName, .stateGroupStateName, .propertyName, .propertyValue, .mixed,
    .image, .color, .text, .hotkey, .sound, .style, .handle, .constantName, .descInternal]

def name : Builtin → String
  | .unknown => "Unknown"
  | .uint8 => "Uint8"
  | .uint16 => "Uint16"
  | .uint32 => "Uint32"
  | .uint64 => "Uint64"
  | .int8 => "Int8"
  | .int16 => "Int16"
  | .int32 => "Int32"
  | .int64 => "Int64"
  | .real32 => "Real32"
  | .string => "String"
  | .boolean => "Boolean"
  | .fileDescName => "FileDescName"
  | .descName => "DescName"
  | .descTemplateName => "DescTemplateName"
  | .frameReference => "FrameReference"
  | .animationName => "AnimationName"
  | .eventName => "EventName"
  | .stateGroupName => "StateGroupName"
  | .stateGroupStateName => "StateGroupStateName"
  | .propertyName => "PropertyName"
  | .propertyValue => "PropertyValue"
  | .mixed => "Mixed"
  | .image => "Image"
  | .color => "Color"
  | .text => "Text"
  | .hotkey => "Hotkey"
  | .sound => "Sound"
  | .style => "Style"
  | .handle => "Handle"
  | .constantName => "ConstantName"
  | .descInternal => "DescInternal"

/-- The least and the greatest value of the integer kinds. -/
def intRange? : Builtin → Option (Int × Int)
  | .uint8 => some (0, 255)
  | .uint16 => some (0, 65535)
  | .uint32 => some (0, 4294967295)
  | .uint64 => some (0, 18446744073709551615)
  | .int8 => some (-128, 127)
  | .int16 => some (-32768, 32767)
  | .int32 => some (-2147483648, 2147483647)
  | .int64 => some (-9223372036854775808, 9223372036854775807)
  | _ => none

/-- Are values of this kind written as path selectors? -/
def isSelector : Builtin → Bool
  | .descName | .descTemplateName | .frameReference | .descInternal => true
  | _ => false

end Builtin

inductive SlotKind where
  | unknown
  | desc
  | requiredDefines
  | descFlags
  | inclusion
  | constant
  | frame
  | frameProperty
  | animation
  | animationEvent
  | animationController
  | animationControllerKey
  | stateGroup
  | stateGroupDefaultState
  | stateGroupState
  | stateGroupStateCondition
  | stateGroupStateAction
  deriving DecidableEq, Repr

namespace SlotKind

def all : List SlotKind :=
  [.unknown, .desc, .requiredDefines, .descFlags, .inclusion, .constant, .frame, .frameProperty,
    .animation, .animationEvent, .animationController, .animationControllerKey, .stateGroup,
    .stateGroupDefaultState, .stateGroupState, .stateGroupStateCondition, .stateGroupStateAction]

def name : SlotKind → String
  | .unknown => "Unknown"
  | .desc => "Desc"
  | .requiredDefines => "RequiredDefines"
  | .descFlags => "DescFlags"
  | .inclusion => "Include"
  | .constant => "Constant"
  | .frame => "Frame"
  | .frameProperty => "FrameProperty"
  | .animation => "Animation"
  | .animationEvent => "AnimationEvent"
  | .animationController => "AnimationController"
  | .animationControllerKey => "AnimationControllerKey"
  | .stateGroup => "StateGroup"
  | .stateGroupDefaultState => "StateGroupDefaultState"
  | .stateGroupState => "StateGroupState"
  | .stateGroupStateCondition => "StateGroupStateCondition"
  | .stateGroupStateAction => "StateGroupStateAction"

/-- Do elements of this kind declare an entry of the namespace? -/
def declares : SlotKind → Bool
  | .frame | .animation | .stateGroup => true
  | _ => false

end SlotKind

end Schema
end UILayout
