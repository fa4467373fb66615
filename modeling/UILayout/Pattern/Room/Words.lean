import UILayout.Pattern.Room.Basic

/-!
# UILayout.Pattern.Room.Words

The room of alternatives that are all plain texts. They become a tree of bytes. Where a word ends, the
words before it come before its end and those behind it after, so each such end starts a new chunk of
transitions.
-/

namespace UILayout
namespace WordRoom

/-- Adds a tail to those of the words that start with a byte. -/
def addTail (byte : Nat) (tail : List Nat) :
    List (Nat × List (List Nat)) → List (Nat × List (List Nat))
  | [] => [(byte, [tail])]
  | (b, tails) :: rest =>
    if b = byte then (b, tail :: tails) :: rest else (b, tails) :: addTail byte tail rest

/-- The words of a state, parted where one ends, by their first bytes. -/
def chunks : List (List Nat) → List (List (Nat × List (List Nat)))
  | [] => [[]]
  | [] :: rest => [] :: chunks rest
  | (b :: tail) :: rest =>
    match chunks rest with
    | chunk :: more => addTail b tail chunk :: more
    | [] => [addTail b tail []]

/-- Words of which the first is empty are empty once only. -/
def trim (words : List (List Nat)) : List (List Nat) :=
  let rest := words.dropWhile (·.isEmpty)
  if rest.length < words.length then [] :: rest else rest

/-- The states and the further bytes of a tree; a leaf takes none. A state has a way to each chunk and
to each end between two chunks. `depth` bounds the length of a word. -/
def tree : Nat → List (List Nat) → Nat × Nat
  | 0, _ => (0, 0)
  | depth + 1, words =>
    if words.all (·.isEmpty) then (0, 0)
    else
      let all := chunks (trim words)
      let used := all.filter (!·.isEmpty)
      used.foldl
        (fun sum chunk =>
          chunk.foldl
            (fun sum branch =>
              let below := tree depth branch.2
              (sum.1 + below.1, sum.2 + below.2))
            (sum.1 + 1, sum.2 + if chunk.length = 1 then 0 else 8 * chunk.length))
        (1, 4 * (used.length + (all.length - 1)))

/-- The room behind words, with the state in which they all end. -/
def lay? (words : List (List Nat)) (room : Room) : Option Room :=
  let depth := words.foldl (fun n w => max n w.length) 0
  let sum := tree depth words
  room.add? (sum.1 + 1) sum.2

end WordRoom
end UILayout
