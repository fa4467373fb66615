import UILayout.Pattern.CaseFold
import UILayout.Text.Blank
import UILayout.Text.Word

/-!
# UILayout.Pattern.CharClass

Sets of characters as pattern texts write them: behind a backslash, or in brackets with ranges,
nesting, named ASCII sets and the operators `&&`, `--` and `~~`. With a set comes how deep its
brackets and operators are nested.
-/

namespace UILayout

open Text

namespace CharClass

inductive Escape where
  | char (c : Char)
  | set (s : CodeRanges)

/-- Characters that stand for themselves behind a backslash: ASCII, but no letters, digits or angle
brackets. -/
def isEscapable (c : Char) : Bool := c.toNat < 128 && !c.isAlphanum && c ≠ '<' && c ≠ '>'

def escape? (c : Char) : Option Escape :=
  if isEscapable c then some (.char c)
  else if c = 'd' then some (.set digitRanges)
  else if c = 'D' then some (.set digitRanges.complement)
  else if c = 'w' then some (.set wordRanges)
  else if c = 'W' then some (.set wordRanges.complement)
  else if c = 's' then some (.set blankRanges)
  else if c = 'S' then some (.set blankRanges.complement)
  else if c = 'n' then some (.char '\n')
  else if c = 'r' then some (.char '\r')
  else if c = 't' then some (.char '\t')
  else if c = 'a' then some (.char (Char.ofNat 7))
  else if c = 'f' then some (.char (Char.ofNat 12))
  else if c = 'v' then some (.char (Char.ofNat 11))
  else none

/-- Sets with a name, which brackets may hold as `[:name:]`. -/
def asciiSets : List (String × CodeRanges) := [
  ("alnum", [(0x30, 0x39), (0x41, 0x5a), (0x61, 0x7a)]),
  ("alpha", [(0x41, 0x5a), (0x61, 0x7a)]),
  ("ascii", [(0, 0x7f)]),
  ("blank", [(9, 9), (0x20, 0x20)]),
  ("cntrl", [(0, 0x1f), (0x7f, 0x7f)]),
  ("digit", [(0x30, 0x39)]),
  ("graph", [(0x21, 0x7e)]),
  ("lower", [(0x61, 0x7a)]),
  ("print", [(0x20, 0x7e)]),
  ("punct", [(0x21, 0x2f), (0x3a, 0x40), (0x5b, 0x60), (0x7b, 0x7e)]),
  ("space", [(9, 0xd), (0x20, 0x20)]),
  ("upper", [(0x41, 0x5a)]),
  ("word", [(0x30, 0x39), (0x41, 0x5a), (0x5f, 0x5f), (0x61, 0x7a)]),
  ("xdigit", [(0x30, 0x39), (0x41, 0x46), (0x61, 0x66)])]

/-- The set as it counts: case is made even before a set is turned round. -/
def turned (caseless negated : Bool) (s : CodeRanges) : CodeRanges :=
  let even := if caseless then CaseFold.close s else s
  if negated then even.complement else even

/-- A set with a name, of which the bracket is read, and the number of characters it takes. -/
def named? (caseless : Bool) (cs : List Char) : Option (CodeRanges × Nat) :=
  match cs with
  | ':' :: rest =>
    let negated := rest.head? = some '^'
    let body := if negated then rest.drop 1 else rest
    let name := body.takeWhile (· ≠ ':')
    if (body.drop name.length).take 2 = [':', ']'] then
      (asciiSets.find? (·.1 = String.ofList name)).map fun s =>
        (turned caseless negated s.2, (if negated then 4 else 3) + name.length)
    else none
  | _ => none

/-- One member of a class: its set, its code point if it is a single character, its length. -/
structure Item where
  set : CodeRanges
  code? : Option Nat
  width : Nat

def Item.ofChar (c : Char) (width : Nat) : Item := ⟨.single c.toNat, some c.toNat, width⟩

def item? : List Char → Option Item
  | [] => none
  | c :: cs =>
    if c = '\\' then
      match cs with
      | [] => none
      | e :: _ =>
        match escape? e with
        | some (.char c) => some (.ofChar c 2)
        | some (.set s) => some ⟨s, none, 2⟩
        | none => none
    else some (.ofChar c 1)

/-- A member or a range of a class. A dash is a member where no range can stand. -/
def member? (cs : List Char) : Option (CodeRanges × Nat) :=
  match item? cs with
  | none => none
  | some first =>
    match cs.drop first.width with
    | '-' :: next :: rest =>
      if next = ']' ∨ next = '-' then some (first.set, first.width)
      else
        match first.code?, item? (next :: rest) with
        | some low, some last =>
          match last.code? with
          | some high =>
            if low ≤ high then some ([(low, high)], first.width + 1 + last.width) else none
          | none => none
        | _, _ => none
    | _ => some (first.set, first.width)

inductive SetOperator where
  | intersection
  | difference
  | symmetricDifference
  deriving Repr

def operator? : List Char → Option SetOperator
  | '&' :: '&' :: _ => some .intersection
  | '-' :: '-' :: _ => some .difference
  | '~' :: '~' :: _ => some .symmetricDifference
  | _ => none

def SetOperator.apply : SetOperator → CodeRanges → CodeRanges → CodeRanges
  | .intersection, s, t => s.inter t
  | .difference, s, t => s.diff t
  | .symmetricDifference, s, t => s.symmDiff t

/-- A set, and how deep it is nested. -/
structure Nested where
  set : CodeRanges
  depth : Nat

/-- A class that is still open. -/
structure Frame where
  negated : Bool
  /-- All members since the last operator. -/
  members : CodeRanges
  count : Nat
  /-- The depth of the deepest of them. -/
  depth : Nat
  /-- What stands before an operator. -/
  pending? : Option (Nested × SetOperator)

def Frame.add (f : Frame) (s : Nested) : Frame :=
  { f with members := f.members.union s.set, count := f.count + 1, depth := max f.depth s.depth }

/-- The members since the last operator; several of them are one level of nesting. -/
def Frame.last (f : Frame) : Nested := ⟨f.members, if 1 < f.count then f.depth + 1 else f.depth⟩

/-- What the class holds so far. Where case does not count, it does not for either side of an operator. -/
def Frame.value (caseless : Bool) (f : Frame) : Nested :=
  match f.pending? with
  | some (left, op) =>
    ⟨op.apply (turned caseless false left.set) (turned caseless false f.last.set),
      max left.depth f.last.depth + 1⟩
  | none => f.last

def Frame.close (caseless : Bool) (f : Frame) : Nested :=
  let v := f.value caseless
  ⟨turned caseless f.negated v.set, v.depth + 1⟩

/-- The start of a class behind its bracket: its frame, and the characters taken. Dashes count as
members there, and so does a closing bracket that comes first. -/
def start (cs : List Char) : Frame × Nat :=
  let negated := cs.head? = some '^'
  let body := if negated then cs.drop 1 else cs
  let dashes := (body.takeWhile (· = '-')).length
  let taken := if negated then 1 else 0
  if 0 < dashes then (⟨negated, .single '-'.toNat, dashes, 0, none⟩, taken + dashes)
  else if body.head? = some ']' then (⟨negated, .single ']'.toNat, 1, 0, none⟩, taken + 1)
  else (⟨negated, [], 0, 0, none⟩, taken)

/-- The body of a class: its set, and the number of characters up to the closing bracket. `skip`
characters were taken already, `width` counts all that were passed. -/
def body (caseless : Bool) (outer : List Frame) (f : Frame) (skip width : Nat) :
    List Char → Option (Nested × Nat)
  | [] => none
  | c :: cs =>
    match skip with
    | n + 1 => body caseless outer f n (width + 1) cs
    | 0 =>
      if c = ']' then
        match outer with
        | [] => some (f.close caseless, width + 1)
        | g :: rest => body caseless rest (g.add (f.close caseless)) 0 (width + 1) cs
      else if c = '[' then
        match named? caseless cs with
        | some (s, taken) => body caseless outer (f.add ⟨s, 0⟩) taken (width + 1) cs
        | none => body caseless (f :: outer) (start cs).1 (start cs).2 (width + 1) cs
      else
        match operator? (c :: cs) with
        | some op =>
          body caseless outer ⟨f.negated, [], 0, 0, some (f.value caseless, op)⟩ 1 (width + 1) cs
        | none =>
          match member? (c :: cs) with
          | some (s, taken) => body caseless outer (f.add ⟨s, 0⟩) (taken - 1) (width + 1) cs
          | none => none

def ofText? (caseless : Bool) (cs : List Char) : Option (Nested × Nat) :=
  body caseless [] (start cs).1 (start cs).2 0 cs

end CharClass

end UILayout
