import Std.Data.HashMap

/-!
# UILayout.Pattern.Room.Basic

How much room an automaton over bytes takes. A state takes 32 bytes, each transition of a state that has
several 8 more, and each way out of a branching state 4.

* `bytes_le_limit_of_add?`: what was added is never more than the limit allows.
-/

namespace UILayout

/-- What an automaton takes so far. Its states are numbered in the order in which they are made. -/
structure Room where
  states : Nat
  extra : Nat
  deriving DecidableEq, Repr

namespace Room

def limit : Nat := 10485760

def bytes (r : Room) : Nat := 32 * r.states + r.extra

def add? (r : Room) (states extra : Nat) : Option Room :=
  let more : Room := ⟨r.states + states, r.extra + extra⟩
  if more.bytes ≤ limit then some more else none

/-- States with a single way out each. -/
def plain? (r : Room) (n : Nat) : Option Room := r.add? n 0

/-- A state with `n` transitions. -/
def choice? (r : Room) (n : Nat) : Option Room := r.add? 1 (8 * n)

/-- Ways out of branching states. -/
def ways? (r : Room) (n : Nat) : Option Room := r.add? 0 (4 * n)

theorem bytes_le_limit_of_add? {r more : Room} {states extra : Nat}
    (h : r.add? states extra = some more) : more.bytes ≤ limit := by
  simp only [add?] at h
  split at h
  · cases h
    assumption
  · cases h

end Room

/-- States that may be shared: the room, and the states that are held in the places of a store. A place
holds the state that was put there last. -/
structure SharedStates (κ : Type) where
  room : Room
  held : Std.HashMap Nat (κ × Nat)

namespace SharedStates

variable {κ : Type}

def ofRoom (room : Room) : SharedStates κ := ⟨room, ∅⟩

/-- Mixes numbers into one of 64 bits. -/
def mix (ns : List Nat) : UInt64 :=
  ns.foldl (fun h n => (h ^^^ UInt64.ofNat n) * 1099511628211) 14695981039346656037

/-- One of `places` places for numbers. -/
def placeOf (places : Nat) (ns : List Nat) : Nat := (mix ns).toNat % places

/-- The number of the state that `key` describes: the one that `place` holds, or a new one that takes what
`grow` adds. -/
def state? [DecidableEq κ] (s : SharedStates κ) (place : Nat) (key : κ) (grow : Room → Option Room) :
    Option (Nat × SharedStates κ) :=
  match s.held[place]?.filter (·.1 = key) with
  | some found => some (found.2, s)
  | none =>
    (grow s.room).map fun room => (s.room.states, ⟨room, s.held.insert place (key, s.room.states)⟩)

end SharedStates

end UILayout
