import UILayout.Schema.Load

/-!
# UILayout.Schema.Run

Loading a schema in loops that nothing bounds from outside. Complex types are compiled with a flag for each
that tells whether it is being compiled; chains of classes are walked up, once with a counter and once
without, until a class has no parent. A run is known by the outcomes that it can end with: one that does
not end has none.
-/

namespace UILayout
namespace Schema

/-- A run, by the outcomes that it can end with. -/
def Run (α : Type) : Type := Except Fault α → Prop

namespace Run

def of {α : Type} (outcomes : Except Fault α → Prop) : Run α := outcomes

/-- A run that ends, with an outcome. -/
def ended {α : Type} (outcome : Except Fault α) : Run α := of fun outcome' => outcome' = outcome

/-- One run after the other. A fault ends both. -/
instance : Monad Run where
  pure a := ended (.ok a)
  bind first next outcome :=
    (∃ a, first (.ok a) ∧ next a outcome) ∨ ∃ fault, first (.error fault) ∧ outcome = .error fault

end Run

/-! ## Complex types -/

/-- What is compiled so far, and a flag for each complex type: is it being compiled? -/
structure Building where
  flat : Flat
  visiting : Array Bool

/-- The type of a number is compiled, and has its slots behind the others. -/
def Building.put (st : Building) (id : ComplexTypeId) (compiled : ComplexType × Array Slot) : Building where
  flat := ⟨(id, compiled.1) :: st.flat.types, compiled.2⟩
  visiting := st.visiting.setIfInBounds id false

/-- Takes over what the type of a number has, if it is compiled. -/
def ComplexType.takeOver (t : ComplexType) (flat : Flat) (id : ComplexTypeId) : ComplexType :=
  match flat.type? id with
  | some b => t.inherit id b
  | none => t

mutual

/-- Compiles the type of a number, unless it is compiled already. Its flag is set for as long as its
bases are compiled. -/
inductive Flattens (names : Names) (defs : List ComplexTypeDef) :
    Building → ComplexTypeId → Except Fault Building → Prop where
  | compiled {st id t} (ht : st.flat.type? id = some t) : Flattens names defs st id (.ok st)
  | cycle {st id d} (hnew : st.flat.type? id = none) (hd : defs[id]? = some d)
      (hflag : st.visiting[id]? = some true) :
      Flattens names defs st id (.error (.cycle .complexType d.name))
  | badBase {st id d fault} (hnew : st.flat.type? id = none) (hd : defs[id]? = some d)
      (hflag : st.visiting[id]? = some false)
      (hbases : Inherits names defs ⟨st.flat, st.visiting.setIfInBounds id true⟩ d.name (.bare d)
        d.bases (.error fault)) :
      Flattens names defs st id (.error fault)
  | badOwn {st id d st' t fault} (hnew : st.flat.type? id = none) (hd : defs[id]? = some d)
      (hflag : st.visiting[id]? = some false)
      (hbases : Inherits names defs ⟨st.flat, st.visiting.setIfInBounds id true⟩ d.name (.bare d)
        d.bases (.ok (st', t)))
      (hown : addOwn names d t st'.flat.slots = .error fault) :
      Flattens names defs st id (.error fault)
  | type {st id d st' t compiled} (hnew : st.flat.type? id = none) (hd : defs[id]? = some d)
      (hflag : st.visiting[id]? = some false)
      (hbases : Inherits names defs ⟨st.flat, st.visiting.setIfInBounds id true⟩ d.name (.bare d)
        d.bases (.ok (st', t)))
      (hown : addOwn names d t st'.flat.slots = .ok compiled) :
      Flattens names defs st id (.ok (st'.put id compiled))

/-- Compiles the bases that `owner` names, one after the other, and takes over what each has. -/
inductive Inherits (names : Names) (defs : List ComplexTypeDef) :
    Building → String → ComplexType → List String → Except Fault (Building × ComplexType) → Prop where
  | nil {st owner t} : Inherits names defs st owner t [] (.ok (st, t))
  | unknown {st owner t base rest fault}
      (hbase : lookup .complexType names.complex base owner = .error fault) :
      Inherits names defs st owner t (base :: rest) (.error fault)
  | bad {st owner t base rest id fault}
      (hbase : lookup .complexType names.complex base owner = .ok id)
      (hflat : Flattens names defs st id (.error fault)) :
      Inherits names defs st owner t (base :: rest) (.error fault)
  | cons {st owner t base rest id st' outcome}
      (hbase : lookup .complexType names.complex base owner = .ok id)
      (hflat : Flattens names defs st id (.ok st'))
      (hrest : Inherits names defs st' owner (t.takeOver st'.flat id) rest outcome) :
      Inherits names defs st owner t (base :: rest) outcome

end

def runComplex (simple : List String) (defs : List ComplexTypeDef) :
    Run (Array ComplexType × Array Slot) := do
  let names : Names := ⟨simple, defs.map (·.name)⟩
  Run.ended (checkNames .complexType [] names.complex)
  let all := List.range defs.length
  let st ← all.foldlM (fun st id => Run.of (Flattens names defs st id))
    ⟨⟨[], #[]⟩, Array.replicate defs.length false⟩
  return ((all.filterMap st.flat.type?).toArray, st.flat.slots)

/-! ## Frames -/

/-- Walks up from a class and counts the steps; there must not be more than there are classes. -/
inductive Checks (classes : Array FrameClass) (name : String) :
    Nat → Option FrameClassId → Except Fault Unit → Prop where
  | top {steps} : Checks classes name steps none (.ok ())
  | far {steps id} (hfar : classes.size < steps + 1) :
      Checks classes name steps (some id) (.error (.cycle .frameClass name))
  | up {steps id outcome} (hnear : steps + 1 ≤ classes.size)
      (hup : Checks classes name (steps + 1) (classes[id]?.bind (·.parent?)) outcome) :
      Checks classes name steps (some id) outcome

def runClasses (typeNames : List String) (types : Array ComplexType) (defs : List FrameClassDef) :
    Run ClassTables := do
  let names := defs.map (·.name)
  Run.ended (checkNames .frameClass [] names)
  let tables ← Run.ended (defs.foldlM (compileClass names typeNames types) ⟨#[], #[]⟩)
  tables.classes.toList.foldlM (fun _ c => Run.of (Checks tables.classes c.name 0 c.parent?)) ()
  return tables

/-- Walks up from a class, without counting. Each class is put in under its name, and its properties under
theirs. -/
inductive Collects (classes : Array FrameClass) (frameType : String) :
    Option FrameClassId → NameMap FrameClassId → NameMap PropertyId →
      Except Fault (NameMap FrameClassId × NameMap PropertyId) → Prop where
  | top {found properties} : Collects classes frameType none found properties (.ok (found, properties))
  | bad {id c found properties fault} (hc : classes[id]? = some c)
      (hmerge : mergeProperties frameType properties c.properties.entries = .error fault) :
      Collects classes frameType (some id) found properties (.error fault)
  | up {id c found properties properties' outcome} (hc : classes[id]? = some c)
      (hmerge : mergeProperties frameType properties c.properties.entries = .ok properties')
      (hup : Collects classes frameType c.parent? (found.put c.name id) properties' outcome) :
      Collects classes frameType (some id) found properties outcome

def runFrameType (classNames typeNames : List String) (tables : ClassTables)
    (done : Array FrameType) (d : FrameTypeDef) : Run (Array FrameType) := do
  let primary ← Run.ended (lookup .frameClass classNames d.frameClass d.name)
  let type ← Run.ended (lookup .complexType typeNames d.type d.name)
  let custom? ← Run.ended <|
    match d.customDesc? with
    | some custom => (lookup .complexType typeNames custom d.name).map some
    | none => .ok none
  let (classes, properties) ← Run.of (Collects tables.classes d.name (some primary) .empty .empty)
  if done.any (·.name = d.name) then Run.ended (.error (.duplicate .frameType d.name))
  else return done.push ⟨d.name, d.internalOnly, custom?, classes.values, properties, type⟩

/-! ## Definitions -/

/-- Loads a definition in loops. -/
def run (d : Definition) : Run Schema := do
  let simple ← Run.ended (compileSimples d.simpleTypes)
  let (types, slots) ← runComplex (d.simpleTypes.map (·.name)) d.complexTypes
  let typeNames := d.complexTypes.map (·.name)
  let rootType ← Run.ended (lookup .complexType typeNames d.root.type "root")
  let tables ← runClasses typeNames types d.frameClasses
  let frameTypes ← d.frameTypes.foldlM
    (runFrameType (d.frameClasses.map (·.name)) typeNames tables) #[]
  return {
    simpleTypes := simple.toArray
    complexTypes := types
    slots := slots.push ⟨d.root.element, .desc, rootType, .empty, none, none⟩
    classes := tables.classes
    properties := tables.properties
    frameTypes := frameTypes
    root := slots.size }

end Schema
end UILayout
