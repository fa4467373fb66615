import Mathlib.Data.List.Basic
import UILayout.Text.Lines
import UILayout.Text.Split

/-!
# UILayout.Proofs.Text.Lines

Lines and columns are a second way to write the offsets of a text: every offset up to the end has one
position on a line that is there, every such position is that of one offset, and the order is the same.

* `finds_binarySearch`: what halving finds in ascending numbers.
* `onLine_iff`: on which line an offset is.
* `scanl_lines`: the lines start where those before them end.
* `lineCol_bijective`: offsets and positions.
-/

namespace UILayout
namespace Text

/-! ## Halving -/

section

variable {xs : Array Nat} {x : Nat}

/-- What a search among ascending numbers has to find: the number, or else the place between those below it
and those above it. -/
def Finds (xs : Array Nat) (x : Nat) : Except Nat Nat → Prop
  | .ok i => xs[i]? = some x
  | .error i => i ≤ xs.size ∧ (∀ j y, j < i → xs[j]? = some y → y < x) ∧
      ∀ j y, i ≤ j → xs[j]? = some y → x < y

theorem lt_of_ascending (hxs : xs.toList.Pairwise (· < ·)) {i j y z : Nat} (hi : xs[i]? = some y)
    (hj : xs[j]? = some z) (hlt : i < j) : y < z := by
  obtain ⟨hi', rfl⟩ := Array.getElem?_eq_some_iff.1 hi
  obtain ⟨hj', rfl⟩ := Array.getElem?_eq_some_iff.1 hj
  exact List.pairwise_iff_getElem.1 hxs i j hi' hj' hlt

theorem le_of_ascending (hxs : xs.toList.Pairwise (· < ·)) {i j y z : Nat} (hi : xs[i]? = some y)
    (hj : xs[j]? = some z) (hle : i ≤ j) : y ≤ z := by
  rcases Nat.lt_or_eq_of_le hle with hlt | rfl
  · exact Nat.le_of_lt (lt_of_ascending hxs hi hj hlt)
  · exact Nat.le_of_eq (Option.some.inj (hi.symm.trans hj))

/-- The window always holds the last number that is not above `x`, unless all are above it. -/
theorem finds_bisect (hxs : xs.toList.Pairwise (· < ·)) {base size : Nat} (hle : base + size ≤ xs.size)
    (hsize : 0 < size) (hbelow : base = 0 ∨ ∃ y, xs[base]? = some y ∧ y ≤ x)
    (habove : ∀ j y, base + size ≤ j → xs[j]? = some y → x < y) :
    Finds xs x (bisect xs x base size hle) := by
  fun_induction bisect xs x base size hle with
  | case1 base size hle hmany mid hmid hlt ih =>
    refine ih (by omega) hbelow fun j y hj hy => ?_
    have hge := le_of_ascending hxs (Array.getElem?_eq_getElem hmid) hy (by omega)
    exact Nat.lt_of_lt_of_le hlt hge
  | case2 base size hle hmany mid hmid hge ih =>
    refine ih (by omega) (.inr ⟨xs[mid], Array.getElem?_eq_getElem hmid, Nat.le_of_not_lt hge⟩) ?_
    exact fun j y hj hy => habove j y (by omega) hy
  | case3 base size hle hmany hone heq =>
    exact heq ▸ Array.getElem?_eq_getElem (by omega)
  | case4 base size hle hmany hone hne hlt =>
    have hbase : xs[base]? = some xs[base] := Array.getElem?_eq_getElem (by omega)
    refine ⟨by omega, fun j y hj hy => ?_, fun j y hj hy => habove j y (by omega) hy⟩
    exact Nat.lt_of_le_of_lt (le_of_ascending hxs hy hbase (by omega)) hlt
  | case5 base size hle hmany hone hne hge =>
    have hbase : xs[base]? = some xs[base] := Array.getElem?_eq_getElem (by omega)
    have hlt : x < xs[base] := by omega
    refine ⟨by omega, fun j y hj hy => ?_, fun j y hj hy => ?_⟩
    · rcases hbelow with rfl | ⟨z, hz, hle⟩
      · exact absurd hj (Nat.not_lt_zero j)
      · rw [hbase] at hz
        cases hz
        exact absurd hle (Nat.not_le_of_lt hlt)
    · exact Nat.lt_of_lt_of_le hlt (le_of_ascending hxs hbase hy hj)
  | case6 base size hle hmany hzero => exact absurd hsize hzero

theorem finds_binarySearch (hxs : xs.toList.Pairwise (· < ·)) (x : Nat) :
    Finds xs x (binarySearch xs x) := by
  rcases Nat.eq_zero_or_pos xs.size with hempty | hpos
  · obtain rfl := Array.size_eq_zero_iff.1 hempty
    rw [binarySearch, bisect]
    exact ⟨Nat.le_refl 0, nofun, nofun⟩
  · refine finds_bisect hxs _ hpos (.inl rfl) fun j y hj hy => ?_
    have hlt := (Array.getElem?_eq_some_iff.1 hy).1
    omega

end

namespace LineIndex

/-! ## The line of an offset -/

/-- A line starts at `start`, and an offset is neither before it nor on a later line. -/
structure OnLine (index : LineIndex) (offset line start : Nat) : Prop where
  starts : index.starts[line]? = some start
  le : start ≤ offset
  lt : ∀ next, index.starts[line + 1]? = some next → offset < next

section

variable {index : LineIndex} {offset line start : Nat}

/-- A later line starts behind an offset on an earlier one. -/
theorem OnLine.lt_of_lt (h : index.OnLine offset line start) {line' start' : Nat}
    (hstart : index.starts[line']? = some start') (hlt : line < line') : offset < start' := by
  have hnext : line + 1 < index.starts.size :=
    Nat.lt_of_le_of_lt hlt (Array.getElem?_eq_some_iff.1 hstart).1
  have hstarts := Array.getElem?_eq_getElem hnext
  exact Nat.lt_of_lt_of_le (h.lt _ hstarts) (le_of_ascending index.ascending hstarts hstart hlt)

theorem OnLine.line_le (h : index.OnLine offset line start) {offset' line' start' : Nat}
    (h' : index.OnLine offset' line' start') (hle : offset ≤ offset') : line ≤ line' := by
  by_contra hlt
  have := h'.lt_of_lt h.starts (Nat.lt_of_not_le hlt)
  have := h.le
  omega

theorem OnLine.unique (h : index.OnLine offset line start) {line' start' : Nat}
    (h' : index.OnLine offset line' start') : line = line' ∧ start = start' := by
  obtain rfl := Nat.le_antisymm (h.line_le h' (Nat.le_refl _)) (h'.line_le h (Nat.le_refl _))
  exact ⟨rfl, Option.some.inj (h.starts.symm.trans h'.starts)⟩

/-- Wherever a search finds an offset, the line that follows from it is the one that the offset is on. -/
theorem onLine_lineAt (index : LineIndex) (offset : Nat) :
    ∃ start, index.OnLine offset (index.lineAt offset) start := by
  have hfinds := finds_binarySearch index.ascending offset
  unfold lineAt
  cases hsearch : binarySearch index.starts offset with
  | ok line =>
    rw [hsearch] at hfinds
    exact ⟨offset, hfinds, Nat.le_refl _, fun next hnext =>
      lt_of_ascending index.ascending hfinds hnext (Nat.lt_succ_self line)⟩
  | error next =>
    rw [hsearch] at hfinds
    obtain ⟨hsize, hbelow, habove⟩ := hfinds
    -- the first line starts at 0, so the place is behind it
    cases next with
    | zero => exact absurd (habove 0 0 (Nat.le_refl 0) index.first) (Nat.not_lt_zero offset)
    | succ line =>
      have hstart : index.starts[line]? = some index.starts[line] := Array.getElem?_eq_getElem hsize
      exact ⟨_, hstart, Nat.le_of_lt (hbelow line _ (Nat.lt_succ_self line) hstart), fun next hnext =>
        habove _ _ (Nat.le_refl _) hnext⟩

theorem onLine_iff :
    index.OnLine offset line start ↔ index.lineAt offset = line ∧ index.starts[line]? = some start := by
  obtain ⟨start', h'⟩ := index.onLine_lineAt offset
  constructor
  · intro h
    exact ⟨(h'.unique h).1, h.starts⟩
  · rintro ⟨rfl, hstart⟩
    obtain rfl := Option.some.inj (h'.starts.symm.trans hstart)
    exact h'

theorem lineCol_eq (h : index.OnLine (min offset index.length) line start) :
    index.lineCol offset = ⟨line, min offset index.length - start⟩ := by
  obtain ⟨hline, hstart⟩ := onLine_iff.1 h
  simp only [lineCol, hline, Array.getD_eq_getD_getElem?, hstart, Option.getD_some]

/-- The position of an offset leads back to it, or to the end if it is past the end. -/
theorem offset?_lineCol (index : LineIndex) (offset : Nat) :
    index.offset? (index.lineCol offset) = some (min offset index.length) := by
  obtain ⟨start, h⟩ := index.onLine_lineAt (min offset index.length)
  rw [lineCol_eq h, offset?, h.starts, Option.map_some, Nat.add_sub_cancel' h.le,
    Nat.min_eq_left (Nat.min_le_right _ _)]

theorem lineCol_mono (index : LineIndex) {offset offset' : Nat} (hle : offset ≤ offset') :
    index.lineCol offset ≤ index.lineCol offset' := by
  obtain ⟨start, h⟩ := index.onLine_lineAt (min offset index.length)
  obtain ⟨start', h'⟩ := index.onLine_lineAt (min offset' index.length)
  have hmin : min offset index.length ≤ min offset' index.length := by omega
  rw [lineCol_eq h, lineCol_eq h']
  rcases Nat.lt_or_eq_of_le (h.line_le h' hmin) with hlt | heq
  · exact .inl hlt
  · refine .inr ⟨heq, ?_⟩
    obtain rfl := Option.some.inj (h.starts.symm.trans ((congrArg (index.starts[·]?) heq).trans h'.starts))
    exact Nat.sub_le_sub_right hmin start

end

/-! ## The lines of a text -/

/-- Every line starts behind the line feed of the one before it; behind the last one, a line feed would
stand at the end. -/
theorem scanl_lines (at_ : Nat) (text : List Char) :
    (splitOn '\n' text).scanl (fun start line => start + byteLength line + 1) at_ =
      at_ :: startsFrom at_ text ++ [at_ + byteLength text + 1] := by
  induction text generalizing at_ with
  | nil => rfl
  | cons c cs ih =>
    have hrest := ih (at_ + c.utf8Size)
    by_cases hc : c = '\n'
    · subst hc
      rw [splitOn, if_pos rfl, startsFrom, if_pos rfl, List.scanl_cons]
      have hsize : '\n'.utf8Size = 1 := by decide
      rw [hsize] at hrest
      simpa [hsize, Nat.add_assoc] using hrest
    · rw [splitOn, if_neg hc, startsFrom, if_neg hc]
      cases hlines : splitOn '\n' cs with
      | nil => simpa [hlines] using length_splitOn '\n' cs
      | cons line rest =>
        rw [hlines] at hrest
        simpa [Nat.add_assoc] using hrest

variable {text : List Char} {l : Nat} {line : List Char}

theorem lineCount_ofText (text : List Char) :
    (ofText text).lineCount = (splitOn '\n' text).length := by
  have h := congrArg List.length (scanl_lines 0 text)
  simpa [lineCount, ofText] using h.symm

theorem le_of_mem_startsFrom {at_ start : Nat} (h : start ∈ startsFrom at_ text) :
    start ≤ at_ + byteLength text := by
  induction text generalizing at_ with
  | nil => cases h
  | cons c cs ih =>
    have hle : start ∈ startsFrom (at_ + c.utf8Size) cs → start ≤ at_ + byteLength (c :: cs) := by
      intro hmem
      have := ih hmem
      rw [byteLength_cons]
      omega
    rw [startsFrom] at h
    split at h
    · rcases List.mem_cons.1 h with rfl | h
      · rw [byteLength_cons]
        omega
      · exact hle h
    · exact hle h

/-- A line that is there starts somewhere, and the next one behind its line feed; the last one ends where
the text does. -/
theorem exists_start (hline : (splitOn '\n' text)[l]? = some line) :
    ∃ start, (ofText text).starts[l]? = some start ∧
      match (ofText text).starts[l + 1]? with
      | some next => next = start + byteLength line + 1 ∧ next ≤ byteLength text
      | none => byteLength text = start + byteLength line := by
  have hstarts : ∀ i, (ofText text).starts[i]? = (0 :: startsFrom 0 text)[i]? :=
    fun i => List.getElem?_toArray
  have hcount : (0 :: startsFrom 0 text).length = (splitOn '\n' text).length := lineCount_ofText text
  have hlt : l < (0 :: startsFrom 0 text).length := hcount ▸ (List.getElem?_eq_some_iff.1 hline).1
  have hscan := scanl_lines 0 text
  have hnext : (0 :: startsFrom 0 text ++ [0 + byteLength text + 1])[l + 1]? =
      some ((0 :: startsFrom 0 text)[l] + byteLength line + 1) := by
    rw [← hscan, List.getElem?_succ_scanl, hscan, List.getElem?_append_left hlt,
      List.getElem?_eq_getElem hlt, hline]
    rfl
  rw [hstarts, hstarts, List.getElem?_eq_getElem hlt]
  refine ⟨_, rfl, ?_⟩
  split
  · rename_i next hfound
    have hlt' := (List.getElem?_eq_some_iff.1 hfound).1
    rw [List.getElem?_append_left hlt', hfound] at hnext
    refine ⟨Option.some.inj hnext, ?_⟩
    have hmem := List.mem_of_getElem? ((List.getElem?_cons_succ).symm.trans hfound)
    simpa using le_of_mem_startsFrom hmem
  · rename_i hnone
    rw [List.getElem?_append_right (List.getElem?_eq_none_iff.1 hnone)] at hnext
    have hlast : l + 1 - (0 :: startsFrom 0 text).length = 0 := by omega
    rw [hlast] at hnext
    have hend := Option.some.inj hnext
    omega

/-- The offsets on a line are those from its start to its end. -/
theorem onLine_ofText_iff (hline : (splitOn '\n' text)[l]? = some line) {start col : Nat}
    (hstart : (ofText text).starts[l]? = some start) :
    start + col ≤ byteLength text ∧ (ofText text).OnLine (start + col) l start ↔
      col ≤ byteLength line := by
  obtain ⟨start', hstart', hend⟩ := exists_start hline
  obtain rfl := Option.some.inj (hstart.symm.trans hstart')
  cases hnext : (ofText text).starts[l + 1]? with
  | some next =>
    rw [hnext] at hend
    obtain ⟨rfl, hle⟩ := hend
    constructor
    · rintro ⟨-, h⟩
      have := h.lt _ hnext
      omega
    · intro hcol
      refine ⟨by omega, hstart, Nat.le_add_right _ _, fun other hother => ?_⟩
      cases hnext.symm.trans hother
      omega
  | none =>
    rw [hnext] at hend
    constructor
    · rintro ⟨hle, -⟩
      have : byteLength text = start + byteLength line := hend
      omega
    · intro hcol
      have : byteLength text = start + byteLength line := hend
      refine ⟨by omega, hstart, Nat.le_add_right _ _, fun other hother => ?_⟩
      rw [hnext] at hother
      cases hother

/-- Every offset up to the end of a text has a position on a line that is there, and none past the end of
the line; every such position is that of the offset which it leads to; and positions go as offsets do. An
offset past the end counts as the end. -/
theorem lineCol_bijective (text : List Char) :
    let index := ofText text
    let lines := splitOn '\n' text
    index.lineCount = lines.length ∧
      (∀ offset, index.offset? (index.lineCol offset) = some (min offset (byteLength text))) ∧
      (∀ offset offset', offset ≤ offset' → index.lineCol offset ≤ index.lineCol offset') ∧
      (∀ offset, ∃ line, lines[(index.lineCol offset).line]? = some line ∧
        (index.lineCol offset).col ≤ byteLength line) ∧
      ∀ l line, lines[l]? = some line → ∀ col ≤ byteLength line, ∃ offset ≤ byteLength text,
        index.offset? ⟨l, col⟩ = some offset ∧ index.lineCol offset = ⟨l, col⟩ := by
  intro index lines
  have hcount : index.lineCount = lines.length := lineCount_ofText text
  refine ⟨hcount, index.offset?_lineCol, fun _ _ hle => index.lineCol_mono hle, fun offset => ?_, ?_⟩
  · obtain ⟨start, h⟩ := index.onLine_lineAt (min offset index.length)
    have hlt : index.lineAt (min offset index.length) < lines.length :=
      hcount ▸ (Array.getElem?_eq_some_iff.1 h.starts).1
    have hline := List.getElem?_eq_getElem hlt
    rw [lineCol_eq h]
    refine ⟨_, hline, (onLine_ofText_iff hline h.starts).1 ?_⟩
    rw [Nat.add_sub_cancel' h.le]
    exact ⟨Nat.min_le_right _ _, h⟩
  · intro l line hline col hcol
    obtain ⟨start, hstart, -⟩ := exists_start hline
    obtain ⟨hle, h⟩ := (onLine_ofText_iff hline hstart).2 hcol
    have hmin : min (start + col) index.length = start + col := Nat.min_eq_left hle
    refine ⟨start + col, hle, ?_, ?_⟩
    · rw [offset?, hstart, Option.map_some, hmin]
    · rw [lineCol_eq (hmin.symm ▸ h), hmin, Nat.add_sub_cancel_left]

/-- An empty line, a character of two bytes, and a line feed at the end: the end of the third line. -/
theorem lineCol_bijective_four_lines :
    let text := "ab\n\nüc\n".toList
    let index := ofText text
    (splitOn '\n' text)[2]? = some "üc".toList ∧ 3 ≤ byteLength "üc".toList ∧
      index.offset? ⟨2, 3⟩ = some 7 ∧ index.lineCol 7 = ⟨2, 3⟩ ∧ index.lineCol 3 ≤ index.lineCol 7 := by
  intro text index
  have hline : (splitOn '\n' text)[2]? = some "üc".toList := by decide
  have hcol : 3 ≤ byteLength "üc".toList := by decide
  have hoffset : index.offset? ⟨2, 3⟩ = some 7 := by decide
  obtain ⟨-, -, hmono, -, hpositions⟩ := lineCol_bijective text
  obtain ⟨offset, -, hfound, hposition⟩ := hpositions 2 _ hline 3 hcol
  obtain rfl := Option.some.inj (hoffset.symm.trans hfound)
  exact ⟨hline, hcol, hoffset, hposition, hmono 3 7 (by decide)⟩

end LineIndex

end Text
end UILayout
