import UILayout.Schema.Format
import UILayout.Schema.Frames

/-!
# UILayout.Schema.Load

Loading a schema. The tables are compiled one after the other, and the first fault ends it.
-/

namespace UILayout
namespace Schema

/-- Compiles a definition. The slot of the root element comes behind all others. -/
def ofDefinition (d : Definition) : Except Fault Schema := do
  let simple ← compileSimples d.simpleTypes
  let (types, slots) ← compileComplex (d.simpleTypes.map (·.name)) d.complexTypes
  let typeNames := d.complexTypes.map (·.name)
  let rootType ← lookup .complexType typeNames d.root.type "root"
  let tables ← compileClasses typeNames types d.frameClasses
  let frameTypes ← compileFrameTypes (d.frameClasses.map (·.name)) typeNames tables d.frameTypes
  return {
    simpleTypes := simple.toArray
    complexTypes := types
    slots := slots.push ⟨d.root.element, .desc, rootType, .empty, none, none⟩
    classes := tables.classes
    properties := tables.properties
    frameTypes := frameTypes
    root := slots.size }

def ofJson (j : Json) : Except Fault Schema :=
  match Definition.decoder j with
  | .error fault => .error (.format fault)
  | .ok d => ofDefinition d

def ofText (text : List Char) : Except Fault Schema :=
  match Definition.ofText text with
  | .error fault => .error (.format fault)
  | .ok d => ofDefinition d

end Schema
end UILayout
