import UILayout.Pattern.Room.Layout
import UILayout.Pattern.Token

/-!
# UILayout.Pattern.Reader

Reading patterns. One pass over the characters keeps the groups that are still open. A pattern of a
schema must match a value from end to end: it is read between `^(?:` and `)$`.
-/

namespace UILayout
namespace Pattern

/-- A pattern, and how deep it is nested. -/
structure Read where
  pattern : Pattern
  depth : Nat

inductive Part where
  /-- A change of flags, which nothing can be said of. -/
  | flags
  | pattern (r : Read)

def Part.read : Part → Read
  | .flags => ⟨.empty, 0⟩
  | .pattern r => r

/-- Several patterns as one. They are a level of nesting, a single one is none. -/
def Read.join (f : List Pattern → Pattern) (rs : List Read) : Read :=
  let depth := rs.foldl (fun d r => max d r.depth) 0
  ⟨f (rs.map (·.pattern)), if 1 < rs.length then depth + 1 else depth⟩

structure Group where
  /-- How case counted before the group. -/
  caseless : Bool
  /-- The number of the group, if it is counted. -/
  index? : Option Nat
  /-- The alternatives before the last bar, last first. -/
  before : List Read
  /-- The parts since then, last first. -/
  parts : List Part

structure ReaderState where
  caseless : Bool
  /-- How many counted groups were opened. -/
  counted : Nat
  names : List (List Char)
  current : Group
  outer : List Group

def Group.sequence (g : Group) : Read := .join concat (g.parts.reverse.map Part.read)

def Group.value (g : Group) : Read := .join alternate (g.sequence :: g.before).reverse

/-- The group as a part of another one. -/
def Group.close (g : Group) : Read :=
  let v := g.value
  match g.index? with
  | some index => ⟨.group index v.pattern, v.depth + 1⟩
  | none => ⟨v.pattern, v.depth + 1⟩

def Group.add (g : Group) (part : Part) : Group := { g with parts := part :: g.parts }

/-- One token; `none` when it cannot stand here. -/
def advance (st : ReaderState) : PatternToken → Option ReaderState
  | .item p depth => some { st with current := st.current.add (.pattern ⟨p, depth⟩) }
  | .opening isCounted name? caseless? =>
    let counted := if isCounted then st.counted + 1 else st.counted
    let opened : ReaderState :=
      { st with
        caseless := caseless?.getD st.caseless
        counted
        current := ⟨st.caseless, if isCounted then some counted else none, [], []⟩
        outer := st.current :: st.outer }
    match name? with
    | none => some opened
    | some name => if st.names.contains name then none else some { opened with names := name :: st.names }
  | .setCaseless caseless =>
    some { st with caseless := caseless, current := st.current.add .flags }
  | .closing =>
    match st.outer with
    | [] => none
    | g :: rest =>
      some { st with
        caseless := st.current.caseless
        current := g.add (.pattern st.current.close)
        outer := rest }
  | .bar =>
    some { st with
      current := { st.current with before := st.current.sequence :: st.current.before, parts := [] } }
  | .repeated least most? greedy =>
    match st.current.parts with
    | .pattern r :: parts =>
      let again : Read := ⟨r.pattern.repetition least most? greedy, r.depth + 1⟩
      some { st with current := { st.current with parts := .pattern again :: parts } }
    | _ => none

/-- Reads the characters of a pattern, of which the first `skip` belong to the token before. -/
def readFrom (st : ReaderState) (skip : Nat) : List Char → Option Read
  | [] => if st.outer.isEmpty then some st.current.value else none
  | c :: cs =>
    match skip with
    | n + 1 => readFrom st n cs
    | 0 =>
      match PatternToken.next st.caseless c cs with
      | none => none
      | some (token, width) =>
        match advance st token with
        | none => none
        | some st => readFrom st (width - 1) cs

def depthLimit : Nat := 250

/-- Reads a pattern; `none` when it is malformed, nested too deep, or takes too much room. -/
def ofText? (text : List Char) : Option Pattern :=
  match readFrom ⟨false, 0, [], ⟨false, none, [], []⟩, []⟩ 0 text with
  | some r => if r.depth ≤ depthLimit ∧ r.pattern.fits then some r.pattern else none
  | none => none

/-- Reads a pattern that must match a text from its start to its end. -/
def whole? (text : List Char) : Option Pattern :=
  ofText? (['^', '(', '?', ':'] ++ text ++ [')', '$'])

end Pattern

end UILayout
