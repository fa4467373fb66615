import UILayout.OrderedMap
import UILayout.Schema.Kind

/-!
# UILayout.Schema.Definition

Schemas as they are written: lists of types, each of which refers to others by name.
-/

namespace UILayout
namespace Schema

structure RootDef where
  element : String
  type : String
  deriving Repr

structure MemberDef where
  name : String
  label? : Option String
  deriving Repr

structure SimpleTypeDef where
  name : String
  kind : SimpleKind
  builtin : Builtin
  /-- Is the empty value accepted? -/
  nullable : Bool
  /-- The frame class that a reference must lead to. -/
  internal? : Option String
  members : List MemberDef
  patterns : List String
  union : List String
  label? : Option String
  deriving Repr

structure AttributeDef where
  name : String
  type : String
  required : Bool
  default? : Option String
  label? : Option String
  documentation? : Option String
  deriving Repr

/-- A rule for attributes that have no definition: simple types for the name and for the value. -/
structure WildcardDef where
  key : String
  value : String
  deriving Repr

structure SlotDef where
  name : String
  kind : SlotKind
  type : String
  /-- Other types, by the value of the `type` attribute that selects them. -/
  alternates : NameMap String
  label? : Option String
  documentation? : Option String
  deriving Repr

structure TypeFlags where
  isStruct : Bool
  readOnly : Bool
  /-- Are attributes without a definition accepted? -/
  allowExtra : Bool
  deriving DecidableEq, Repr

structure ComplexTypeDef where
  name : String
  bases : List String
  flags : TypeFlags
  attributes : List AttributeDef
  wildcards : List WildcardDef
  slots : List SlotDef
  label? : Option String
  documentation? : Option String
  deriving Repr

structure PropertyDef where
  name : String
  readOnly : Bool
  table : Bool
  tableKey? : Option String
  deriving Repr

structure FrameClassDef where
  name : String
  parent? : Option String
  type : String
  properties : List PropertyDef
  deriving Repr

structure FrameTypeDef where
  name : String
  /-- The most derived class of the frame type. -/
  frameClass : String
  type : String
  internalOnly : Bool
  customDesc? : Option String
  deriving Repr

structure Definition where
  root : RootDef
  simpleTypes : List SimpleTypeDef
  complexTypes : List ComplexTypeDef
  frameClasses : List FrameClassDef
  frameTypes : List FrameTypeDef
  deriving Repr

end Schema
end UILayout
