import UILayout.Schema.Flatten

/-!
# UILayout.Schema.Frames

Compiling frame classes and frame types. A class may have a parent; the chain of parents must end,
and no two classes of one chain may define a property of the same name.
-/

namespace UILayout
namespace Schema

/-- Classes and properties that are compiled so far. -/
structure ClassTables where
  classes : Array FrameClass
  properties : Array Property

/-- Adds a property of the class `owner`, which has the number `id` and slots in `type`. -/
def addProperty (type : ComplexType) (owner : String) (id : FrameClassId)
    (st : Array Property × NameMap PropertyId) (d : PropertyDef) :
    Except Fault (Array Property × NameMap PropertyId) :=
  match type.slots.get? d.name with
  | none => .error (.unknown .element d.name owner)
  | some slot =>
    .ok (st.1.push ⟨d.name, slot, id, d.readOnly, d.table, d.tableKey?⟩,
      st.2.put d.name st.1.size)

def compileClass (classNames typeNames : List String) (types : Array ComplexType)
    (st : ClassTables) (d : FrameClassDef) : Except Fault ClassTables := do
  let id := st.classes.size
  let parent? ←
    match d.parent? with
    | some parent => (lookup .frameClass classNames parent d.name).map some
    | none => .ok none
  let typeId ← lookup .complexType typeNames d.type d.name
  match types[typeId]? with
  | none => .error (.unknown .complexType d.type d.name)
  | some type =>
    let (properties, own) ← d.properties.foldlM (addProperty type d.name id) (st.properties, .empty)
    return ⟨st.classes.push ⟨d.name, parent?, typeId, own⟩, properties⟩

/-- The class `id?` and its ancestors; `none` when there are more than `bound` of them. -/
def classChain? (classes : Array FrameClass) : Nat → Option FrameClassId → Option (List FrameClassId)
  | _, none => some []
  | 0, some _ => none
  | bound + 1, some id =>
    (classChain? classes bound (classes[id]?.bind (·.parent?))).map (id :: ·)

/-- Refuses classes whose ancestors are more than there are classes: their chain does not end. -/
def checkChains (classes : Array FrameClass) : List FrameClass → Except Fault Unit
  | [] => .ok ()
  | c :: rest =>
    match classChain? classes classes.size c.parent? with
    | none => .error (.cycle .frameClass c.name)
    | some _ => checkChains classes rest

def compileClasses (typeNames : List String) (types : Array ComplexType)
    (defs : List FrameClassDef) : Except Fault ClassTables := do
  let names := defs.map (·.name)
  checkNames .frameClass [] names
  let tables ← defs.foldlM (compileClass names typeNames types) ⟨#[], #[]⟩
  checkChains tables.classes tables.classes.toList
  return tables

/-- Adds the properties of one class to those of a frame type. -/
def mergeProperties (frameType : String) (m : NameMap PropertyId) :
    List (String × PropertyId) → Except Fault (NameMap PropertyId)
  | [] => .ok m
  | (name, id) :: rest =>
    if m.contains name then .error (.duplicateProperty frameType name)
    else mergeProperties frameType (m.put name id) rest

def compileFrameType (classNames typeNames : List String) (tables : ClassTables)
    (done : Array FrameType) (d : FrameTypeDef) : Except Fault (Array FrameType) := do
  let primary ← lookup .frameClass classNames d.frameClass d.name
  let type ← lookup .complexType typeNames d.type d.name
  let custom? ←
    match d.customDesc? with
    | some custom => (lookup .complexType typeNames custom d.name).map some
    | none => .ok none
  let classes := (classChain? tables.classes (tables.classes.size + 1) (some primary)).getD []
  let properties ← (classes.filterMap (tables.classes[·]?)).foldlM
    (fun m c => mergeProperties d.name m c.properties.entries) .empty
  if done.any (·.name = d.name) then .error (.duplicate .frameType d.name)
  else .ok (done.push ⟨d.name, d.internalOnly, custom?, classes, properties, type⟩)

def compileFrameTypes (classNames typeNames : List String) (tables : ClassTables)
    (defs : List FrameTypeDef) : Except Fault (Array FrameType) :=
  defs.foldlM (compileFrameType classNames typeNames tables) #[]

end Schema
end UILayout
