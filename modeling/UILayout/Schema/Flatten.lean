import UILayout.Schema.Fault
import UILayout.Schema.Table

/-!
# UILayout.Schema.Flatten

Compiling the types of a definition. Complex types take over what their bases have, base after base,
and then add what they define themselves; a type is compiled after its bases, whatever the order of
the definition, and one that is its own base is refused.
-/

namespace UILayout
namespace Schema

/-- The position of a name among the names of a table. -/
def lookup (noun : Noun) (names : List String) (name source : String) : Except Fault Nat :=
  match names.idxOf? name with
  | some i => .ok i
  | none => .error (.unknown noun name source)

/-- Refuses a table in which a name comes twice. -/
def checkNames (noun : Noun) (seen : List String) : List String → Except Fault Unit
  | [] => .ok ()
  | name :: rest =>
    if seen.contains name then .error (.duplicate noun name) else checkNames noun (name :: seen) rest

/-- Compiles a simple type, where `names` are those of all simple types. -/
def compileSimple (names : List String) (d : SimpleTypeDef) : Except Fault SimpleType := do
  let patterns ← d.patterns.mapM fun p =>
    match Pattern.whole? p.toList with
    | some compiled => Except.ok compiled
    | none => .error (.pattern d.name)
  let union ← d.union.mapM fun member => lookup .simpleType names member d.name
  if d.kind = .union ∧ d.union.contains d.name then .error (.cycle .simpleType d.name)
  else
    .ok
      { name := d.name
        kind := d.kind
        builtin := d.builtin
        nullable := d.nullable
        internal? := d.internal?
        members := .ofList (d.members.map fun m => (Text.lowercase m.name, ⟨m.name, m.label?⟩))
        patterns := patterns
        union := union
        label? := d.label? }

def compileSimples (defs : List SimpleTypeDef) : Except Fault (List SimpleType) := do
  let names := defs.map (·.name)
  checkNames .simpleType [] names
  defs.mapM (compileSimple names)

/-- Complex types that are compiled, by number, and the slots that they use so far. -/
structure Flat where
  types : List (ComplexTypeId × ComplexType)
  slots : Array Slot

def Flat.type? (f : Flat) (id : ComplexTypeId) : Option ComplexType := f.types.lookup id

/-- The names that definitions of complex types refer to. -/
structure Names where
  simple : List String
  complex : List String

/-- A type without attributes and slots. -/
def ComplexType.bare (d : ComplexTypeDef) : ComplexType :=
  { name := d.name
    attributes := .empty
    wildcards := []
    slots := .empty
    flags := d.flags
    bases := .empty
    inheritedAttributes := .empty
    inheritedSlots := .empty
    ownAttributes := .empty
    ownSlots := .empty
    label? := d.label?
    documentation? := d.documentation? }

/-- Takes over what a base has. What a later base has replaces what an earlier one had. -/
def ComplexType.inherit (t : ComplexType) (id : ComplexTypeId) (base : ComplexType) : ComplexType :=
  { t with
    bases := t.bases.put base.name id
    attributes := base.attributes.entries.foldl (fun m e => m.put e.1 e.2) t.attributes
    inheritedAttributes := base.attributes.keys.foldl
      (fun m name => m.put name ((base.inheritedAttributes.get? name).getD id)) t.inheritedAttributes
    slots := base.slots.entries.foldl (fun m e => m.put e.1 e.2) t.slots
    inheritedSlots := base.slots.keys.foldl
      (fun m name => m.put name ((base.inheritedSlots.get? name).getD id)) t.inheritedSlots
    wildcards := t.wildcards ++ base.wildcards
    flags := { t.flags with allowExtra := t.flags.allowExtra || base.flags.allowExtra } }

def addAttribute (names : Names) (owner : String) (t : ComplexType) (d : AttributeDef) :
    Except Fault ComplexType := do
  let type ← lookup .simpleType names.simple d.type owner
  return { t with
    attributes :=
      t.attributes.put d.name ⟨d.name, type, d.required, d.default?, d.label?, d.documentation?⟩
    inheritedAttributes := t.inheritedAttributes.erase d.name
    ownAttributes := t.ownAttributes.put d.name () }

def addWildcard (names : Names) (owner : String) (t : ComplexType) (d : WildcardDef) :
    Except Fault ComplexType := do
  let key ← lookup .simpleType names.simple d.key owner
  let value ← lookup .simpleType names.simple d.value owner
  return { t with wildcards := t.wildcards ++ [⟨key, value⟩] }

def compileAlternates (names : Names) (d : SlotDef) :
    List (String × String) → Except Fault (NameMap ComplexTypeId)
  | [] => .ok .empty
  | (key, type) :: rest => do
    let id ← lookup .complexType names.complex type d.name
    let more ← compileAlternates names d rest
    return ⟨(key, id) :: more.entries⟩

def addSlot (names : Names) (owner : String) (st : ComplexType × Array Slot) (d : SlotDef) :
    Except Fault (ComplexType × Array Slot) := do
  let alternates ← compileAlternates names d d.alternates.entries
  let type ← lookup .complexType names.complex d.type owner
  let t : ComplexType := { st.1 with
    slots := st.1.slots.put d.name st.2.size
    inheritedSlots := st.1.inheritedSlots.erase d.name
    ownSlots := st.1.ownSlots.put d.name () }
  return (t, st.2.push ⟨d.name, d.kind, type, alternates, d.label?, d.documentation?⟩)

/-- Adds all that a definition says itself to what its bases have. -/
def addOwn (names : Names) (d : ComplexTypeDef) (t : ComplexType) (slots : Array Slot) :
    Except Fault (ComplexType × Array Slot) := do
  let t ← d.attributes.foldlM (addAttribute names d.name) t
  let t ← d.wildcards.foldlM (addWildcard names d.name) t
  d.slots.foldlM (addSlot names d.name) (t, slots)

theorem length_erase_lt {free : List Nat} {id : Nat} (h : id ∈ free) :
    (free.erase id).length < free.length := by
  have := List.length_pos_of_mem h
  rw [List.length_erase_of_mem h]
  omega

mutual

/-- Compiles the type of a number, after its bases. `free` holds the numbers of the types that are
not being compiled already; to meet another one again is a cycle. -/
def flatten (names : Names) (defs : List ComplexTypeDef) (free : List Nat) (flat : Flat) (id : Nat) :
    Except Fault Flat :=
  match flat.type? id, defs[id]? with
  | some _, _ => .ok flat
  | none, none => .ok flat
  | none, some d =>
    if _h : id ∈ free then
      match inheritAll names defs (free.erase id) flat d.name (.bare d) d.bases with
      | .error fault => .error fault
      | .ok (flat, t) =>
        match addOwn names d t flat.slots with
        | .error fault => .error fault
        | .ok (t, slots) => .ok ⟨(id, t) :: flat.types, slots⟩
    else .error (.cycle .complexType d.name)
  termination_by (free.length, 0)
  decreasing_by
    exact Prod.Lex.left _ _ (length_erase_lt _h)

/-- Compiles the bases that `owner` names, and takes over what each has. -/
def inheritAll (names : Names) (defs : List ComplexTypeDef) (free : List Nat) (flat : Flat)
    (owner : String) (t : ComplexType) (bases : List String) : Except Fault (Flat × ComplexType) :=
  match bases with
  | [] => .ok (flat, t)
  | base :: rest =>
    match lookup .complexType names.complex base owner with
    | .error fault => .error fault
    | .ok id =>
      match flatten names defs free flat id with
      | .error fault => .error fault
      | .ok flat =>
        let t :=
          match flat.type? id with
          | some b => t.inherit id b
          | none => t
        inheritAll names defs free flat owner t rest
  termination_by (free.length, bases.length + 1)
  decreasing_by
    · exact Prod.Lex.right _ (by omega)
    · exact Prod.Lex.right _ (by simp)

end

/-- Compiles all complex types; the slots are numbered in the order in which types are compiled. -/
def compileComplex (simple : List String) (defs : List ComplexTypeDef) :
    Except Fault (Array ComplexType × Array Slot) := do
  let names : Names := ⟨simple, defs.map (·.name)⟩
  checkNames .complexType [] names.complex
  let all := List.range defs.length
  let flat ← all.foldlM (flatten names defs all) ⟨[], #[]⟩
  return ((all.filterMap flat.type?).toArray, flat.slots)

end Schema
end UILayout
