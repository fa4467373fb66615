/-!
# UILayout.Text.Span

Stretches of a text, given by byte offsets. `Span.cover` orders its ends, so that a span made from
two offsets is never inverted.
-/

namespace UILayout
namespace Text

/-- The bytes from `start` up to, not including, `stop`. -/
structure Span where
  start : Nat
  stop : Nat
  deriving DecidableEq, Repr, Inhabited

namespace Span

def point (offset : Nat) : Span := ⟨offset, offset⟩

/-- From `start` to `stop`, or empty at `start` when `stop` lies before it. -/
def cover (start stop : Nat) : Span := ⟨start, max start stop⟩

/-- The largest offset of a text, which has 32 bits. -/
def maxOffset : Nat := 4294967295

/-- The span between two offsets, where those beyond the largest one count as that. -/
def clamped (start stop : Nat) : Span := cover (min start maxOffset) (min stop maxOffset)

/-- Both ends count: a caret just behind a name still touches it. -/
def touches (s : Span) (offset : Nat) : Bool := s.start ≤ offset && offset ≤ s.stop

def shift (s : Span) (d : Nat) : Span := ⟨s.start + d, s.stop + d⟩

theorem start_le_stop_cover (start stop : Nat) : (cover start stop).start ≤ (cover start stop).stop :=
  Nat.le_max_left start stop

end Span

end Text
end UILayout
