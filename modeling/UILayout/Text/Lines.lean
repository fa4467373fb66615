import UILayout.Text.Bytes

/-!
# UILayout.Text.Lines

Line and column of a byte offset, and back. Lines and columns count from zero, columns in bytes;
a line feed belongs to the line that it ends.

* `ascending_startsFrom`: every line starts behind the one before it.
-/

namespace UILayout
namespace Text

structure LineCol where
  line : Nat
  col : Nat
  deriving DecidableEq, Repr

/-- Positions go by their lines, and on one line by their columns. -/
instance : LE LineCol := ⟨fun a b => a.line < b.line ∨ a.line = b.line ∧ a.col ≤ b.col⟩

/-! ## Halving -/

/-- Looks for a number among the `size` ones from `base` on, which ascend. Gives the place where it is,
or else, as an error, the place where it would have to go in. -/
def bisect (xs : Array Nat) (x base size : Nat) (hle : base + size ≤ xs.size) : Except Nat Nat :=
  if hmany : 1 < size then
    let mid := base + size / 2
    have hmid : mid < xs.size := by omega
    if x < xs[mid] then bisect xs x base (size - size / 2) (by omega)
    else bisect xs x mid (size - size / 2) (by omega)
  else if hone : 0 < size then
    if xs[base] = x then .ok base
    else if xs[base] < x then .error (base + 1)
    else .error base
  else .error base
  termination_by size

def binarySearch (xs : Array Nat) (x : Nat) : Except Nat Nat := bisect xs x 0 xs.size (by omega)

/-! ## Lines -/

/-- Starts of the lines that follow, for a text that begins at offset `at_`. -/
def startsFrom (at_ : Nat) : List Char → List Nat
  | [] => []
  | c :: cs =>
    let next := at_ + c.utf8Size
    if c = '\n' then next :: startsFrom next cs else startsFrom next cs

theorem ascending_startsFrom (at_ : Nat) (text : List Char) :
    (at_ :: startsFrom at_ text).Pairwise (· < ·) := by
  induction text generalizing at_ with
  | nil => exact List.pairwise_singleton _ _
  | cons c cs ih =>
    have hc : at_ < at_ + c.utf8Size := Nat.lt_add_of_pos_right c.utf8Size_pos
    obtain ⟨hbehind, hrest⟩ := List.pairwise_cons.1 (ih (at_ + c.utf8Size))
    have hlater : ∀ start ∈ startsFrom (at_ + c.utf8Size) cs, at_ < start :=
      fun start hstart => Nat.lt_trans hc (hbehind start hstart)
    rw [startsFrom]
    split
    · exact .cons (List.forall_mem_cons.2 ⟨hc, hlater⟩) (ih _)
    · exact .cons hlater hrest

/-- Where the lines of a text start, and how long the text is. -/
structure LineIndex where
  starts : Array Nat
  length : Nat
  first : starts[0]? = some 0
  ascending : starts.toList.Pairwise (· < ·)

namespace LineIndex

def ofText (text : List Char) : LineIndex where
  starts := (0 :: startsFrom 0 text).toArray
  length := byteLength text
  first := rfl
  ascending := ascending_startsFrom 0 text

def lineCount (index : LineIndex) : Nat := index.starts.size

/-- The last line that starts at or before an offset. -/
def lineAt (index : LineIndex) (offset : Nat) : Nat :=
  match binarySearch index.starts offset with
  | .ok line => line
  | .error next => next - 1

/-- Line and column of an offset; an offset past the end counts as the end. -/
def lineCol (index : LineIndex) (offset : Nat) : LineCol :=
  let offset := min offset index.length
  let line := index.lineAt offset
  ⟨line, offset - index.starts.getD line 0⟩

/-- The offset of a position, clamped to the end; `none` when there is no such line. -/
def offset? (index : LineIndex) (pos : LineCol) : Option Nat :=
  index.starts[pos.line]?.map fun start => min (start + pos.col) index.length

end LineIndex

end Text
end UILayout
