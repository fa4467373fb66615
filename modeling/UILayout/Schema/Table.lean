import UILayout.Pattern.Reader
import UILayout.Schema.Definition

/-!
# UILayout.Schema.Table

Compiled schemas. Each table holds its entries by number, and entries refer to each other by number;
bases are merged into the types that extend them, so that no lookup walks up a chain.

Names are unique within a table, so looking a name up finds the only entry that has it.
-/

namespace UILayout
namespace Schema

abbrev SimpleTypeId := Nat
abbrev ComplexTypeId := Nat
abbrev SlotId := Nat
abbrev FrameClassId := Nat
abbrev PropertyId := Nat
abbrev FrameTypeId := Nat

structure Member where
  name : String
  label? : Option String
  deriving Repr

structure SimpleType where
  name : String
  kind : SimpleKind
  builtin : Builtin
  nullable : Bool
  internal? : Option String
  /-- By name in lower case. -/
  members : NameMap Member
  patterns : List Pattern
  union : List SimpleTypeId
  label? : Option String

/-- The member that a value names, in whatever case. -/
def SimpleType.member? (t : SimpleType) (value : String) : Option Member :=
  t.members.get? (Text.lowercase value)

structure AttributeType where
  name : String
  type : SimpleTypeId
  required : Bool
  default? : Option String
  label? : Option String
  documentation? : Option String
  deriving Repr

/-- Attributes without a definition: the simple types of their names and of their values. -/
structure Wildcard where
  key : SimpleTypeId
  value : SimpleTypeId
  deriving DecidableEq, Repr

structure ComplexType where
  name : String
  attributes : NameMap AttributeType
  wildcards : List Wildcard
  slots : NameMap SlotId
  flags : TypeFlags
  /-- The bases it names. -/
  bases : NameMap ComplexTypeId
  /-- Where each attribute and slot that it does not define itself comes from. -/
  inheritedAttributes : NameMap ComplexTypeId
  inheritedSlots : NameMap ComplexTypeId
  /-- What it defines itself. -/
  ownAttributes : NameMap Unit
  ownSlots : NameMap Unit
  label? : Option String
  documentation? : Option String

structure Slot where
  name : String
  kind : SlotKind
  type : ComplexTypeId
  alternates : NameMap ComplexTypeId
  label? : Option String
  documentation? : Option String

/-- A property that elements in a slot set. -/
structure Property where
  name : String
  slot : SlotId
  frameClass : FrameClassId
  readOnly : Bool
  table : Bool
  tableKey? : Option String
  deriving Repr

structure FrameClass where
  name : String
  parent? : Option FrameClassId
  /-- The type whose slots hold the properties. -/
  type : ComplexTypeId
  properties : NameMap PropertyId

structure FrameType where
  name : String
  internalOnly : Bool
  customDesc? : Option ComplexTypeId
  /-- The chain of classes, the most derived first. -/
  classes : List FrameClassId
  properties : NameMap PropertyId
  type : ComplexTypeId

end Schema

open Schema

structure Schema where
  simpleTypes : Array SimpleType
  complexTypes : Array ComplexType
  slots : Array Slot
  classes : Array FrameClass
  properties : Array Property
  frameTypes : Array FrameType
  root : SlotId

namespace Schema

variable (s : Schema)

def simpleTypeNamed? (name : String) : Option SimpleTypeId :=
  s.simpleTypes.findIdx? (·.name = name)

def complexTypeNamed? (name : String) : Option ComplexTypeId :=
  s.complexTypes.findIdx? (·.name = name)

def classNamed? (name : String) : Option FrameClassId := s.classes.findIdx? (·.name = name)

def frameTypeNamed? (name : String) : Option FrameTypeId :=
  s.frameTypes.findIdx? (·.name = name)

/-- The first frame type whose declarations have a type. -/
def frameTypeOf? (type : ComplexTypeId) : Option FrameTypeId :=
  s.frameTypes.findIdx? fun f => f.type = type || f.customDesc? = some type

/-- The property that a slot sets: the first of those that name it. -/
def propertyOfSlot? (slot : SlotId) : Option PropertyId :=
  s.properties.findIdx? (·.slot = slot)

def propertyNamed? (name : String) : Option PropertyId :=
  s.properties.findIdx? (·.name = name)

def propertiesByName : NameMap (List PropertyId) :=
  s.properties.toList.zipIdx.foldl
    (fun m p => m.alter p.1.name fun ids => (ids.getD []) ++ [p.2]) .empty

def attributeType? (type : ComplexTypeId) (name : String) : Option AttributeType :=
  s.complexTypes[type]?.bind (·.attributes.get? name)

def slotIn? (type : ComplexTypeId) (tag : String) : Option SlotId :=
  s.complexTypes[type]?.bind (·.slots.get? tag)

def slotKind (slot : SlotId) : SlotKind := (s.slots[slot]?.map (·.kind)).getD .unknown

/-- The type of an element in a slot. The `type` attribute of a frame selects the frame type of that
name; any other may select one of the slot's alternates. -/
def elementType (slot : SlotId) (typeValue? : Option String) : ComplexTypeId :=
  match s.slots[slot]? with
  | none => 0
  | some d =>
    match typeValue? with
    | none => d.type
    | some value =>
      let frame? : Option ComplexTypeId :=
        if d.kind = .frame then
          ((s.frameTypeNamed? value).bind (s.frameTypes[·]?)).map (·.type)
        else none
      (frame?.or (d.alternates.get? value)).getD d.type

/-- Binds are accepted in the `val` attribute of elements that set a property. -/
def acceptsBind (slot : SlotId) (type : ComplexTypeId) (attr : String) : Bool :=
  attr = "val" && (s.propertyOfSlot? slot).isSome && (s.attributeType? type attr).isSome

end Schema

namespace Schema

def rootType (s : Schema) : ComplexTypeId := s.elementType s.root none

/-- Is a class of this name in the chain of the frame type? -/
def FrameType.hasClass (s : Schema) (f : FrameType) (name : String) : Bool :=
  f.classes.any fun c => (s.classes[c]?.map (·.name)) = some name

end Schema

end UILayout
