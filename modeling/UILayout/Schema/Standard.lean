import UILayout.Schema.Load

/-!
# UILayout.Schema.Standard

The schema of plain layouts: frames and buttons with their properties, animations, state groups and
constants.
-/

namespace UILayout
namespace Schema
namespace Standard

/-- A simple type of the default kind. -/
def plain (name : String) (builtin : Builtin) : SimpleTypeDef :=
  ⟨name, .default, builtin, false, none, [], [], [], none⟩

/-- A simple type of texts with members. -/
def choice (name : String) (kind : SimpleKind) (members : List String) : SimpleTypeDef :=
  ⟨name, kind, .string, false, none, members.map (⟨·, none⟩), [], [], none⟩

def optional (name type : String) : AttributeDef := ⟨name, type, false, none, none, none⟩

def required (name type : String) : AttributeDef := ⟨name, type, true, none, none, none⟩

def slot (name : String) (kind : SlotKind) (type : String) : SlotDef :=
  ⟨name, kind, type, .empty, none, none⟩

/-- A slot whose elements select their type from `alternates`. -/
def choiceSlot (name : String) (kind : SlotKind) (type : String)
    (alternates : List (String × String)) : SlotDef :=
  ⟨name, kind, type, .ofList alternates, none, none⟩

def noFlags : TypeFlags := ⟨false, false, false⟩

def complex (name : String) (bases : List String) (attributes : List AttributeDef)
    (slots : List SlotDef) : ComplexTypeDef :=
  ⟨name, bases, noFlags, attributes, [], slots, none, none⟩

/-- A complex type with a `val` attribute alone. -/
def value (name : String) (val : AttributeDef) : ComplexTypeDef := complex name [] [val] []

def property (name : String) : PropertyDef := ⟨name, false, false, none⟩

def simpleTypes : List SimpleTypeDef :=
  [plain "string" .string,
    plain "bool" .boolean,
    plain "uint32" .uint32,
    plain "int32" .int32,
    plain "real" .real32,
    plain "color" .color,
    plain "descName" .descName,
    choice "frameType" .enumeration ["Frame", "Button"],
    plain "descTemplateName" .descTemplateName,
    plain "fileDescName" .fileDescName,
    { plain "descInternal" .descInternal with internal? := some "CFrame" },
    { plain "descInternalButton" .descInternal with internal? := some "CButton" },
    plain "frameReference" .frameReference,
    plain "propertyName" .propertyName,
    plain "propertyValue" .propertyValue,
    plain "eventName" .eventName,
    plain "stateName" .stateGroupStateName,
    plain "constantName" .constantName,
    plain "handle" .handle,
    choice "anchorSide" .enumeration ["Top", "Bottom", "Left", "Right"],
    choice "alignFlags" .flags ["Left", "Right", "Center"],
    { plain "hexId" .string with kind := .pattern, patterns := ["[0-9A-Fa-f]\x7b8\x7d"] },
    { plain "fill" .string with
      kind := .enumeration, members := [⟨"Fill", some "Fill the parent"⟩] },
    { plain "size" .mixed with kind := .union, union := ["int32", "fill"] },
    { plain "optionalColor" .color with nullable := true }]

def complexTypes : List ComplexTypeDef :=
  [complex "Desc" [] []
      [slot "Constant" .constant "CConstant", slot "Frame" .frame "CFrame"],
    complex "CConstant" [] [required "name" "constantName", required "val" "string"] [],
    value "CPropBool" (required "val" "bool"),
    value "CPropUint" (required "val" "uint32"),
    value "CPropSize" (required "val" "size"),
    value "CPropString" (required "val" "string"),
    value "CPropColor" (optional "val" "optionalColor"),
    value "CPropFlags" (required "val" "alignFlags"),
    value "CPropHandle" (required "val" "handle"),
    value "CPropButtonRef" (required "val" "descInternalButton"),
    complex "CAnchor" []
      [required "side" "anchorSide", required "relative" "descInternal", optional "pos" "string",
        optional "offset" "int32"]
      [],
    { complex "CFrame" []
      [required "name" "descName", required "type" "frameType",
        optional "template" "descTemplateName", optional "file" "fileDescName",
        optional "id" "hexId"]
      [slot "Frame" .frame "CFrame", slot "Animation" .animation "CAnimation",
        slot "StateGroup" .stateGroup "CStateGroup", slot "Visible" .frameProperty "CPropBool",
        slot "Width" .frameProperty "CPropSize", slot "Height" .frameProperty "CPropUint",
        slot "Color" .frameProperty "CPropColor", slot "Alignment" .frameProperty "CPropFlags",
        slot "Anchor" .frameProperty "CAnchor", slot "Handle" .frameProperty "CPropHandle",
        slot "DefaultButton" .frameProperty "CPropButtonRef"] with
      label? := some "Frame" },
    complex "CControl" ["CFrame"] [] [slot "Enabled" .frameProperty "CPropBool"],
    complex "CButton" ["CControl"] [] [slot "Text" .frameProperty "CPropString"],
    complex "CAnimation" []
      [required "name" "descName"]
      [slot "Event" .animationEvent "CAnimationEvent",
        choiceSlot "Controller" .animationController "CController"
          [("Visibility", "CControllerVisibility"), ("Fade", "CControllerFade")]],
    complex "CAnimationEvent" []
      [required "event" "eventName", optional "action" "string"]
      [],
    complex "CController" [] [required "type" "string", optional "end" "string"] [],
    complex "CControllerVisibility" ["CController"] [optional "frame" "descInternal"] [],
    complex "CControllerFade" ["CController"]
      [optional "frame" "descInternal", optional "duration" "real"]
      [],
    complex "CStateGroup" []
      [required "name" "descName"]
      [slot "DefaultState" .stateGroupDefaultState "CDefaultState",
        slot "State" .stateGroupState "CState"],
    value "CDefaultState" (required "val" "stateName"),
    complex "CState" []
      [required "name" "stateName"]
      [slot "When" .stateGroupStateCondition "CWhen",
        choiceSlot "Action" .stateGroupStateAction "CAction"
          [("SetProperty", "CActionSetProperty"),
            ("ApplyTemplate", "CActionApplyTemplate")]],
    { complex "CWhen" []
      [optional "type" "string", optional "frame" "descInternal"]
      [] with
      wildcards := [⟨"propertyName", "propertyValue"⟩] },
    complex "CAction" [] [required "type" "string", optional "frame" "descInternal"] [],
    { complex "CActionSetProperty" ["CAction"] [] [] with
      wildcards := [⟨"propertyName", "propertyValue"⟩] },
    complex "CActionApplyTemplate" ["CAction"] [required "template" "descTemplateName"] []]

def frameClasses : List FrameClassDef :=
  [⟨"CFrame", none, "CFrame",
      [property "Visible", property "Width", property "Height", property "Color",
        property "Alignment", { property "Anchor" with table := true, tableKey? := some "side" },
        { property "Handle" with readOnly := true }, property "DefaultButton"]⟩,
    ⟨"CControl", some "CFrame", "CControl", [property "Enabled"]⟩,
    ⟨"CButton", some "CControl", "CButton", [property "Text"]⟩]

def frameTypes : List FrameTypeDef :=
  [⟨"Frame", "CFrame", "CFrame", false, none⟩,
    ⟨"Button", "CButton", "CButton", false, none⟩]

def definition : Definition :=
  ⟨⟨"Desc", "Desc"⟩, simpleTypes, complexTypes, frameClasses, frameTypes⟩

end Standard

def standard : Except Fault Schema := ofDefinition Standard.definition

end Schema
end UILayout
