import UILayout.Text.Span

/-!
# UILayout.Markup.Attribute

Attributes as they stand in a document. The value is kept without its references; `escapes` pairs
offsets in the value with offsets in the raw text between the quotes, at both ends of each
reference, so that positions can be carried over in both directions.
-/

namespace UILayout
namespace Markup

open Text

structure Attribute where
  name : String
  value : String
  start : Nat
  /-- Just behind the closing quote. -/
  stop : Nat
  /-- Where the opening quote stands. -/
  valueStart : Nat
  escapes : List (Nat × Nat)
  deriving DecidableEq, Repr

namespace Attribute

/-- The attribute that is written `name="value"` at `start`. -/
def plain (name value : String) (start : Nat) : Attribute :=
  let valueStart := start + name.utf8ByteSize + 1
  ⟨name, value, start, valueStart + value.utf8ByteSize + 2, valueStart, []⟩

def nameSpan (a : Attribute) : Span := ⟨a.start, a.start + a.name.utf8ByteSize⟩

/-- The value with its quotes. -/
def valueSpan (a : Attribute) : Span := .cover a.valueStart a.stop

def contentStart (a : Attribute) : Nat := a.valueStart + 1

/-- The last pair that does not lie behind a position; without one, the start of the value. -/
def lastEdge (key : Nat × Nat → Nat) (position : Nat) (escapes : List (Nat × Nat)) : Nat × Nat :=
  ((escapes.takeWhile fun e => key e ≤ position).getLast?).getD (0, 0)

/-- The document offset of an offset in the value. -/
def sourceOffset (a : Attribute) (position : Nat) : Nat :=
  let edge := lastEdge (·.1) position a.escapes
  a.contentStart + edge.2 + (position - edge.1)

/-- The offset in the value of a document offset between the quotes. Inside a reference it goes no
further than the end of the character that the reference stands for. -/
def valuePosition? (a : Attribute) (offset : Nat) : Option Nat :=
  if a.stop = 0 ∨ offset < a.contentStart ∨ a.stop - 1 < offset then none
  else
    let within := offset - a.contentStart
    let edge := lastEdge (·.2) within a.escapes
    let limit :=
      match a.escapes.dropWhile fun e => e.2 ≤ within with
      | next :: _ => next.1
      | [] => a.value.utf8ByteSize
    some (min (edge.1 + (within - edge.2)) limit)

/-- A span of the value in document offsets. -/
def sourceSpan (a : Attribute) (s : Span) : Span := ⟨a.sourceOffset s.start, a.sourceOffset s.stop⟩

end Attribute

end Markup
end UILayout
