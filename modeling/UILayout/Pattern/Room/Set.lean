import UILayout.Pattern.Room.Basic
import UILayout.Text.ByteRanges

/-!
# UILayout.Pattern.Room.Set

The room of a set of characters. Read forward, forms that begin alike share their first states, and
states that lead to the same ones are shared if they are still held. Read backward, a branching state
leads to each form, and forms share the states of their first bytes.
-/

namespace UILayout

open Text

namespace SetRoom

/-- Transitions: a range of bytes and the state it leads to. -/
abbrev Transitions := List (Nat × Nat × Nat)

/-- Forms that begin with the same range and stand next to each other, by that range. -/
def byHead : List ByteSequence → List ((Nat × Nat) × List ByteSequence)
  | [] => []
  | [] :: rest => byHead rest
  | (r :: tail) :: rest =>
    match byHead rest with
    | (q, tails) :: more =>
      if r = q then (r, tail :: tails) :: more else (r, [tail]) :: (q, tails) :: more
    | [] => [(r, [tail])]

/-- The state from which forms lead to `target`; the states between are made first. `depth` bounds the
length of a form. -/
def forwardState (target : Nat) :
    Nat → List ByteSequence → SharedStates Transitions → Option (Nat × SharedStates Transitions)
  | 0, _, s => some (target, s)
  | depth + 1, forms, s =>
    if forms.head? = some [] then some (target, s)
    else do
      let (done, s) ← (byHead forms).foldlM
        (fun (done, s) (range, tails) => do
          let (number, s) ← forwardState target depth tails s
          return ((range.1, range.2, number) :: done, s)) (([] : Transitions), s)
      let key := done.reverse
      let place := SharedStates.placeOf 10000 (key.flatMap fun t => [t.1, t.2.1, t.2.2])
      s.state? place key (·.choice? key.length)

def forward? (forms : List ByteSequence) (room : Room) : Option Room := do
  let start ← room.plain? 1
  let (_, s) ← forwardState room.states 4 forms (.ofRoom start)
  return s.room

/-- The states of a form that is read backward, of which the last leads to the state `number`. -/
def backwardForm (number : Nat) (s : SharedStates (Nat × Nat × Nat)) :
    ByteSequence → Option (SharedStates (Nat × Nat × Nat))
  | [] => some s
  | (first, last) :: rest => do
    let (number, s) ← s.state? (SharedStates.placeOf 1000 [number, first, last]) (number, first, last)
      (·.plain? 1)
    backwardForm number s rest

/-- All forms read backward, each with a way to it. -/
def backwardForms (number : Nat) (s : SharedStates (Nat × Nat × Nat)) :
    List ByteSequence → Option Room
  | [] => some s.room
  | form :: rest => do
    let s ← backwardForm number s form
    let room ← s.room.ways? 1
    backwardForms number { s with room } rest

def backward? (forms : List ByteSequence) (room : Room) : Option Room := do
  let start ← room.plain? 2
  backwardForms (room.states + 1) (.ofRoom start) forms

/-- The room behind a set. One of ASCII characters takes a state and one that this leads to. -/
def lay? (backward : Bool) (s : CodeRanges) (room : Room) : Option Room :=
  if s.all (·.2 < 0x80) then (room.plain? 1).bind (·.choice? s.length)
  else
    let forms := s.flatMap fun r => byteSequences r.1 r.2
    if backward then backward? forms room else forward? forms room

end SetRoom

end UILayout
