import UILayout.Json.Reader
import UILayout.OrderedMap

/-!
# UILayout.Json.Decoder

Decoding JSON values into data. A decoder walks a value in the order of its text, so that of a wrong
shape and a fault of the text the one that stands first is reported.

A record may be written as an object, with its fields in any order and others among them, or as an
array of its fields in their order.
-/

namespace UILayout

/-- Why a text is no value of the expected shape. -/
inductive DecodeFault where
  | json (cause : JsonCause)
  | shape
  deriving DecidableEq, Repr

abbrev Decoder (α : Type) := Json → Except DecodeFault α

namespace Decoder

/-- What is wrong with a value that stands where another shape was expected. Scalars are looked at
first; arrays and objects are not. -/
def mismatch : Json → DecodeFault
  | .broken strict _ _ => .json strict
  | .string (.error cause) => .json cause
  | .number d => if d.isFinite then .shape else .json .malformed
  | _ => .shape

mutual

def skip : Json → Except DecodeFault Unit
  | .broken _ skipping _ => .error (.json skipping)
  | .array items stop? => do
    skipItems items
    match stop? with
    | some stop => .error (.json stop.cause)
    | none => .ok ()
  | .object entries stop? => do
    skipEntries entries
    match stop? with
    | some stop => .error (.json stop.cause)
    | none => .ok ()
  | _ => .ok ()

def skipItems : List Json → Except DecodeFault Unit
  | [] => .ok ()
  | item :: rest => do
    skip item
    skipItems rest

def skipEntries : List (Except JsonCause String × Json) → Except DecodeFault Unit
  | [] => .ok ()
  | (_, value) :: rest => do
    skip value
    skipEntries rest

end

def text : Decoder String
  | .string (.ok s) => .ok s
  | j => .error (mismatch j)

def flag : Decoder Bool
  | .bool b => .ok b
  | j => .error (mismatch j)

def optional {α : Type} (d : Decoder α) : Decoder (Option α)
  | .null => .ok none
  | j => (d j).map some

def list {α : Type} (d : Decoder α) : Decoder (List α)
  | .array items stop? => do
    let values ← items.mapM d
    match stop? with
    | some stop => .error (.json stop.cause)
    | none => .ok values
  | j => .error (mismatch j)

/-- Entries of an object that maps names to texts; the last of two entries for a name counts. -/
def textsFrom (m : NameMap String) :
    List (Except JsonCause String × Json) → Except DecodeFault (NameMap String)
  | [] => .ok m
  | (.error cause, _) :: _ => .error (.json cause)
  | (.ok name, value) :: rest => do
    let s ← text value
    textsFrom (m.put name s) rest

def texts : Decoder (NameMap String)
  | .object entries stop? => do
    let m ← textsFrom .empty entries
    match stop? with
    | some stop => .error (.json stop.cause)
    | none => .ok m
  | j => .error (mismatch j)

def named {α : Type} (all : List α) (name : α → String) (s : String) : Except DecodeFault α :=
  match all.find? (name · = s) with
  | some a => .ok a
  | none => .error .shape

/-- A name by itself, or as the only key of an object whose value is null. -/
def choice {α : Type} (all : List α) (name : α → String) : Decoder α
  | .string (.ok s) => named all name s
  | .string (.error cause) => .error (.json cause)
  | .broken _ _ opening => .error (.json opening)
  | .object [] (some stop) => .error (.json stop.cause)
  | .object ((.error cause, _) :: _) _ => .error (.json cause)
  | .object ((.ok key, value) :: more) stop? => do
    let a ← named all name key
    match value with
    | .null => .ok ()
    | other => .error (mismatch other)
    match more, stop? with
    | [], none => .ok a
    | [], some stop => .error (.json (if stop.afterComma then .malformed else stop.cause))
    | _ :: _, _ => .error (.json .malformed)
  | _ => .error (.json .malformed)

end Decoder

/-- A decoder for records, put together from their fields. -/
structure Record (α : Type) : Type 1 where
  /-- What is known while the entries of an object are walked. -/
  State : Type
  start : State
  /-- Takes an entry; `none` when the record has no field of that name. -/
  take : String → Json → State → Option (Except DecodeFault State)
  /-- The record, when all entries were seen. -/
  finish : State → Except DecodeFault α
  /-- The record from the items of an array that may break off, and the items left over. -/
  inOrder : Option JsonStop → List Json → Except DecodeFault (α × List Json)

namespace Record

variable {α β : Type}

/-- One field. A value for when it is missing may differ between objects and arrays. -/
def field (name : String) (d : Decoder α) (missing? inOrderMissing? : Option α) : Record α where
  State := Option α
  start := none
  take := fun n j st =>
    if n = name then
      some (match st with
        | some _ => .error .shape
        | none => (d j).map some)
    else none
  finish := fun st =>
    match st.or missing? with
    | some a => .ok a
    | none => .error .shape
  inOrder := fun stop? items =>
    match items, stop? with
    | j :: rest, _ => (d j).map (·, rest)
    | [], some stop => .error (.json stop.cause)
    | [], none =>
      match inOrderMissing? with
      | some a => .ok (a, [])
      | none => .error .shape

def required (name : String) (d : Decoder α) : Record α := field name d none none

def defaulted (name : String) (d : Decoder α) (value : α) : Record α :=
  field name d (some value) (some value)

/-- A field that may be null, or missing from an object. -/
def nullable (name : String) (d : Decoder α) : Record (Option α) :=
  field name (Decoder.optional d) (some none) none

instance : Applicative Record where
  pure a :=
    { State := Unit
      start := ()
      take := fun _ _ _ => none
      finish := fun _ => .ok a
      inOrder := fun _ items => .ok (a, items) }
  seq f x :=
    { State := f.State × (x ()).State
      start := (f.start, (x ()).start)
      take := fun n j st =>
        match f.take n j st.1 with
        | some r => some (r.map (·, st.2))
        | none => ((x ()).take n j st.2).map fun r => r.map (st.1, ·)
      finish := fun st => do
        let g ← f.finish st.1
        let a ← (x ()).finish st.2
        return g a
      inOrder := fun stop? items => do
        let (g, rest) ← f.inOrder stop? items
        let (a, rest) ← (x ()).inOrder stop? rest
        return (g a, rest) }

/-- Takes the entries of an object; those of no field are passed over. -/
def takeAll (r : Record α) (st : r.State) :
    List (Except JsonCause String × Json) → Except DecodeFault r.State
  | [] => .ok st
  | (.error cause, _) :: _ => .error (.json cause)
  | (.ok name, value) :: rest =>
    match r.take name value st with
    | some (.ok next) => takeAll r next rest
    | some (.error fault) => .error fault
    | none =>
      match Decoder.skip value with
      | .ok () => takeAll r st rest
      | .error fault => .error fault

def decode (r : Record α) : Decoder α
  | .object entries stop? => do
    let st ← takeAll r r.start entries
    match stop? with
    | some stop => .error (.json stop.cause)
    | none => r.finish st
  | .array items stop? => do
    let (a, rest) ← r.inOrder stop? items
    match rest, stop? with
    | _ :: _, _ => .error (.json .malformed)
    | [], some stop => .error (.json (if stop.afterComma then .malformed else stop.cause))
    | [], none => .ok a
  | j => .error (Decoder.mismatch j)

end Record

/-- Decodes a text that holds one value and nothing else. -/
def Decoder.ofText {α : Type} (d : Decoder α) (text : List Char) : Except DecodeFault α :=
  let read := Json.ofText text
  match d read.1 with
  | .error fault => .error fault
  | .ok a => if read.2 then .error (.json .malformed) else .ok a

end UILayout
