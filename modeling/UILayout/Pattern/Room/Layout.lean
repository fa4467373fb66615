import UILayout.Pattern.Room.Set
import UILayout.Pattern.Room.Words
import UILayout.Pattern.Syntax

/-!
# UILayout.Pattern.Room.Layout

The room of a pattern, laid out once to be run forward and once to be run backward, with repetitions
written out. A pattern `fits` when neither takes more than the limit.
-/

namespace UILayout

open Text

/-- The room behind a part, and whether the part ends in a branching state: leading on from there takes
one way more. -/
structure Laid where
  room : Room
  branching : Bool

namespace Laid

/-- The room when the part leads on to another state. -/
def on? (l : Laid) : Option Room := if l.branching then l.room.ways? 1 else some l.room

/-- A part that ends in a state of its own. -/
def plain (room : Room) : Laid := ⟨room, false⟩

end Laid

namespace Pattern

/-- `n` more copies in a row. -/
def copies (lay : Room → Option Laid) : Nat → Laid → Option Laid
  | 0, done => some done
  | n + 1, done => do
    let room ← done.on?
    let next ← lay room
    copies lay n next

/-- `n` copies in a row; none is a single state. -/
def exactly (lay : Room → Option Laid) : Nat → Room → Option Laid
  | 0, room => (room.plain? 1).map .plain
  | n + 1, room => do
    let first ← lay room
    copies lay n first

/-- `n` more copies in a row, each of which may be left out with all that follow. -/
def optional (lay : Room → Option Laid) : Nat → Laid → Option Laid
  | 0, done => done.on?.map .plain
  | n + 1, done => do
    let room ← done.on?
    let room ← room.plain? 1
    let next ← lay room
    let room ← next.room.ways? 2
    optional lay n ⟨room, next.branching⟩

/-- A repetition without bound that may be left out. What can be empty is repeated first and then made
optional. -/
def anyNumber (lay : Room → Option Laid) (canBeEmpty : Bool) (room : Room) : Option Laid := do
  if canBeEmpty then
    let room ← (← lay room).on?
    let room ← room.plain? 3
    let room ← room.ways? 4
    return .plain room
  else
    let room ← room.plain? 1
    let room ← (← lay room).on?
    let room ← room.ways? 1
    return ⟨room, true⟩

/-- A repetition without bound, `n` times at least. -/
def atLeast (lay : Room → Option Laid) (n : Nat) (room : Room) : Option Laid := do
  let room ← (← exactly lay n room).on?
  let room ← room.plain? 1
  let room ← room.ways? 1
  return ⟨room, true⟩

def repeatedly (lay : Room → Option Laid) (canBeEmpty : Bool) (least : Nat) (most? : Option Nat)
    (room : Room) : Option Laid :=
  match least, most? with
  | 0, some 1 => do
    let room ← room.plain? 1
    let room ← (← lay room).on?
    let room ← room.plain? 1
    let room ← room.ways? 2
    return .plain room
  | 0, none => anyNumber lay canBeEmpty room
  | n, none => atLeast lay n room
  | m, some n => do
    let first ← exactly lay m room
    if m = n then return first
    let room ← first.room.plain? 1
    optional lay (n - m) ⟨room, first.branching⟩

/-- A part that stands behind `before` other alternatives, if any: the state before and the one behind
all alternatives are made after the second. -/
def asBranch (before : Nat) (l : Laid) : Option Laid :=
  if before = 0 then some l
  else do
    let room ← l.on?
    let room ← room.ways? 1
    let room ← room.plain? (if before = 1 then 2 else 0)
    return .plain room

/-- The text of a pattern that is nothing but a text. -/
def text? : Pattern → Option (List Char)
  | .literal cs => some cs
  | _ => none

/-- The texts of the alternatives, if all are texts. -/
def words? (p : Pattern) : Option (List (List Char)) := p.branches.mapM text?

/-- Lays out a pattern that stands behind `before` alternatives. -/
def lay (backward : Bool) : Pattern → Nat → Room → Option Laid
  | .empty, before, room | .atStart, before, room | .atEnd, before, room => do
    asBranch before (.plain (← room.plain? 1))
  | .literal cs, before, room => do
    asBranch before (.plain (← room.plain? (utf8Text cs).length))
  | .set s, before, room => do
    asBranch before (.plain (← SetRoom.lay? backward s room))
  | .group _ p, before, room => do
    if backward then asBranch before (← lay backward p 0 room)
    else
      let room ← room.plain? 1
      let room ← (← lay backward p 0 room).on?
      asBranch before (.plain (← room.plain? 1))
  | .seq a b, before, room => do
    if backward then
      let room ← (← lay backward b 0 room).on?
      asBranch before (← lay backward a 0 room)
    else
      let room ← (← lay backward a 0 room).on?
      asBranch before (← lay backward b 0 room)
  | .alt a b, before, room => do
    match if before = 0 then words? (.alt a b) else none with
    | some words =>
      let words := words.map utf8Text
      return .plain (← WordRoom.lay? (if backward then words.map List.reverse else words) room)
    | none =>
      let first ← lay backward a 0 room
      let room ← first.on?
      let room ← room.ways? 1
      let room ← room.plain? (if before = 1 then 2 else 0)
      lay backward b (before + 1) room
  | .repeated p least most? _, before, room => do
    let whole ← repeatedly (lay backward p 0) (!(minLength? p).any (0 < ·)) least most? room
    asBranch before whole

/-- What stands before a pattern: a state, or a loop over all bytes when a match may start anywhere. -/
def start? (anchored : Bool) : Option Laid := do
  let room : Room := ⟨0, 0⟩
  if anchored then return .plain (← room.plain? 1)
  else
    let room ← room.plain? 2
    let room ← room.choice? 1
    return ⟨← room.ways? 1, true⟩

/-- The room to run a pattern forward. The whole is a group of its own. -/
def forwardRoom? (p : Pattern) : Option Room := do
  let room ← (← start? p.startsAtStart).on?
  let room ← room.plain? 1
  let room ← (← lay false p 0 room).on?
  room.plain? 2

/-- The room to run a pattern backward. -/
def backwardRoom? (p : Pattern) : Option Room := do
  let room ← (← start? p.stopsAtEnd).on?
  let room ← (← lay true p 0 room).on?
  room.plain? 1

def fits (p : Pattern) : Bool := p.forwardRoom?.isSome && p.backwardRoom?.isSome

end Pattern

end UILayout
