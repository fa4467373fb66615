import UILayout.Json.Decoder
import UILayout.Schema.Definition

/-!
# UILayout.Schema.Format

The JSON form of schema definitions: the name of each field, and what stands for a field that is
left out.
-/

namespace UILayout
namespace Schema

def RootDef.decoder : Decoder RootDef :=
  Record.decode (RootDef.mk <$> Record.required "element" Decoder.text <*> Record.required "type" Decoder.text)

def MemberDef.decoder : Decoder MemberDef :=
  Record.decode (MemberDef.mk <$> Record.required "name" Decoder.text <*> Record.nullable "label" Decoder.text)

def SimpleTypeDef.decoder : Decoder SimpleTypeDef :=
  Record.decode (SimpleTypeDef.mk
    <$> Record.required "name" Decoder.text
    <*> Record.defaulted "kind" (Decoder.choice SimpleKind.all SimpleKind.name) .default
    <*> Record.defaulted "builtin" (Decoder.choice Builtin.all Builtin.name) .unknown
    <*> Record.defaulted "nullable" Decoder.flag false
    <*> Record.nullable "internalType" Decoder.text
    <*> Record.defaulted "members" (Decoder.list MemberDef.decoder) []
    <*> Record.defaulted "patterns" (Decoder.list Decoder.text) []
    <*> Record.defaulted "union" (Decoder.list Decoder.text) []
    <*> Record.nullable "label" Decoder.text)

def AttributeDef.decoder : Decoder AttributeDef :=
  Record.decode (AttributeDef.mk
    <$> Record.required "name" Decoder.text
    <*> Record.required "type" Decoder.text
    <*> Record.defaulted "required" Decoder.flag false
    <*> Record.nullable "default" Decoder.text
    <*> Record.nullable "label" Decoder.text
    <*> Record.nullable "documentation" Decoder.text)

def WildcardDef.decoder : Decoder WildcardDef :=
  Record.decode (WildcardDef.mk <$> Record.required "key" Decoder.text <*> Record.required "value" Decoder.text)

def SlotDef.decoder : Decoder SlotDef :=
  Record.decode (SlotDef.mk
    <$> Record.required "name" Decoder.text
    <*> Record.defaulted "kind" (Decoder.choice SlotKind.all SlotKind.name) .unknown
    <*> Record.required "type" Decoder.text
    <*> Record.defaulted "alternates" Decoder.texts .empty
    <*> Record.nullable "label" Decoder.text
    <*> Record.nullable "documentation" Decoder.text)

def TypeFlags.none : TypeFlags := ⟨false, false, false⟩

def TypeFlags.decoder : Decoder TypeFlags :=
  Record.decode (TypeFlags.mk
    <$> Record.defaulted "isStruct" Decoder.flag false
    <*> Record.defaulted "readOnly" Decoder.flag false
    <*> Record.defaulted "allowExtraAttrs" Decoder.flag false)

def ComplexTypeDef.decoder : Decoder ComplexTypeDef :=
  Record.decode (ComplexTypeDef.mk
    <$> Record.required "name" Decoder.text
    <*> Record.defaulted "extends" (Decoder.list Decoder.text) []
    <*> Record.defaulted "flags" TypeFlags.decoder .none
    <*> Record.defaulted "attributes" (Decoder.list AttributeDef.decoder) []
    <*> Record.defaulted "indeterminate" (Decoder.list WildcardDef.decoder) []
    <*> Record.defaulted "elements" (Decoder.list SlotDef.decoder) []
    <*> Record.nullable "label" Decoder.text
    <*> Record.nullable "documentation" Decoder.text)

def PropertyDef.decoder : Decoder PropertyDef :=
  Record.decode (PropertyDef.mk
    <$> Record.required "name" Decoder.text
    <*> Record.defaulted "readOnly" Decoder.flag false
    <*> Record.defaulted "table" Decoder.flag false
    <*> Record.nullable "tableKey" Decoder.text)

def FrameClassDef.decoder : Decoder FrameClassDef :=
  Record.decode (FrameClassDef.mk
    <$> Record.required "name" Decoder.text
    <*> Record.nullable "parent" Decoder.text
    <*> Record.required "type" Decoder.text
    <*> Record.defaulted "properties" (Decoder.list PropertyDef.decoder) [])

def FrameTypeDef.decoder : Decoder FrameTypeDef :=
  Record.decode (FrameTypeDef.mk
    <$> Record.required "name" Decoder.text
    <*> Record.required "class" Decoder.text
    <*> Record.required "type" Decoder.text
    <*> Record.defaulted "blizzOnly" Decoder.flag false
    <*> Record.nullable "customDesc" Decoder.text)

def Definition.decoder : Decoder Definition :=
  Record.decode (Definition.mk
    <$> Record.required "root" RootDef.decoder
    <*> Record.defaulted "simpleTypes" (Decoder.list SimpleTypeDef.decoder) []
    <*> Record.defaulted "complexTypes" (Decoder.list ComplexTypeDef.decoder) []
    <*> Record.defaulted "frameClasses" (Decoder.list FrameClassDef.decoder) []
    <*> Record.defaulted "frameTypes" (Decoder.list FrameTypeDef.decoder) [])

def Definition.ofText (text : List Char) : Except DecodeFault Definition :=
  Definition.decoder.ofText text

end Schema
end UILayout
