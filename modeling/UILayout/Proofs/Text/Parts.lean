import UILayout.Text.Bytes
import UILayout.Text.Split

/-!
# UILayout.Proofs.Text.Parts

Parts of a text, between two byte offsets or between separators. A part stands between two offsets just
when the text splits around it, and the offsets are the lengths of what stands before its two ends.

* `slice?_eq_some_iff`: where a part of a text stands.
* `slice?_append_right`, `slice?_append_left`: longer texts.
* `exists_slice?`: between any two boundaries a part can be cut out.
* `splitOn_append`: a text is cut at its first separator, and then behind it.
-/

namespace UILayout
namespace Text

/-! ## Lengths -/

/-- Strings are measured in the same bytes as their characters. -/
theorem utf8ByteSize_ofList (cs : List Char) : (String.ofList cs).utf8ByteSize = byteLength cs := by
  induction cs with
  | nil => rfl
  | cons c cs ih =>
    rw [String.ofList_cons, String.utf8ByteSize_append, String.utf8ByteSize_singleton, ih,
      byteLength_cons]

theorem byteLength_toList (s : String) : byteLength s.toList = s.utf8ByteSize := by
  rw [← utf8ByteSize_ofList, String.ofList_toList]

/-! ## Between offsets -/

section

variable {text part : List Char} {start stop : Nat}

theorem dropBytes?_eq_some {n : Nat} {cs rest : List Char} (h : dropBytes? n cs = some rest) :
    ∃ before, cs = before ++ rest ∧ n = byteLength before := by
  fun_induction dropBytes? n cs with
  | case1 cs =>
    cases h
    exact ⟨[], rfl, rfl⟩
  | case2 => cases h
  | case3 n c cs hle ih =>
    obtain ⟨before, rfl, hbefore⟩ := ih h
    refine ⟨c :: before, rfl, ?_⟩
    rw [byteLength_cons]
    omega
  | case4 => cases h

theorem takeBytes?_eq_some {n : Nat} {cs part : List Char} (h : takeBytes? n cs = some part) :
    ∃ rest, cs = part ++ rest ∧ n = byteLength part := by
  fun_induction takeBytes? n cs generalizing part with
  | case1 cs =>
    cases h
    exact ⟨cs, rfl, rfl⟩
  | case2 => cases h
  | case3 n c cs hle ih =>
    obtain ⟨tail, htail, rfl⟩ := Option.map_eq_some_iff.1 h
    obtain ⟨rest, rfl, hlength⟩ := ih htail
    refine ⟨rest, rfl, ?_⟩
    rw [byteLength_cons]
    omega
  | case4 => cases h

theorem slice?_append (before mid after : List Char) :
    slice? (before ++ (mid ++ after)) (byteLength before) (byteLength before + byteLength mid) =
      some mid := by
  rw [slice?, if_pos (Nat.le_add_right _ _), dropBytes?_append, Option.bind_some,
    Nat.add_sub_cancel_left, takeBytes?_append]

theorem slice?_eq_some_iff : slice? text start stop = some part ↔
    ∃ before after, text = before ++ (part ++ after) ∧ start = byteLength before ∧
      stop = byteLength before + byteLength part := by
  constructor
  · intro h
    unfold slice? at h
    split at h
    · rename_i hle
      obtain ⟨rest, hrest, htake⟩ := Option.bind_eq_some_iff.1 h
      obtain ⟨before, rfl, rfl⟩ := dropBytes?_eq_some hrest
      obtain ⟨after, rfl, hlength⟩ := takeBytes?_eq_some htake
      exact ⟨before, after, rfl, rfl, by omega⟩
    · cases h
  · rintro ⟨before, after, rfl, rfl, rfl⟩
    exact slice?_append before part after

/-- What stands between two offsets stays there when the text goes on. -/
theorem slice?_append_right (h : slice? text start stop = some part) (more : List Char) :
    slice? (text ++ more) start stop = some part := by
  obtain ⟨before, after, rfl, hstart, hstop⟩ := slice?_eq_some_iff.1 h
  exact slice?_eq_some_iff.2 ⟨before, after ++ more, by simp, hstart, hstop⟩

/-- What is put in front of a text moves all that stands in it. -/
theorem slice?_append_left (h : slice? text start stop = some part) (front : List Char) :
    slice? (front ++ text) (start + byteLength front) (stop + byteLength front) = some part := by
  obtain ⟨before, after, rfl, rfl, rfl⟩ := slice?_eq_some_iff.1 h
  refine slice?_eq_some_iff.2 ⟨front ++ before, after, by simp, ?_, ?_⟩ <;>
    (rw [byteLength_append]; omega)

/-- An offset between two characters of a text, or at one of its ends. -/
def Boundary (text : List Char) (offset : Nat) : Prop :=
  ∃ before after, text = before ++ after ∧ offset = byteLength before

theorem Boundary.le_byteLength {offset : Nat} (h : Boundary text offset) : offset ≤ byteLength text := by
  obtain ⟨before, after, rfl, rfl⟩ := h
  rw [byteLength_append]
  exact Nat.le_add_right _ _

theorem boundary_byteLength (text : List Char) : Boundary text (byteLength text) :=
  ⟨text, [], (List.append_nil text).symm, rfl⟩

/-- Between two boundaries there is always something to cut out. -/
theorem exists_slice? (hstart : Boundary text start) (hstop : Boundary text stop)
    (hle : start ≤ stop) : ∃ part, slice? text start stop = some part := by
  obtain ⟨before, after, rfl, rfl⟩ := hstart
  obtain ⟨front, behind, htext, rfl⟩ := hstop
  rcases List.append_eq_append_iff.1 htext with ⟨mid, rfl, rfl⟩ | ⟨mid, rfl, rfl⟩
  · exact ⟨mid, slice?_eq_some_iff.2 ⟨before, behind, rfl, rfl, byteLength_append before mid⟩⟩
  · -- the boundaries come in this order only when nothing is between them
    rw [byteLength_append] at hle
    refine ⟨[], slice?_eq_some_iff.2 ⟨front ++ mid, after, rfl, rfl, ?_⟩⟩
    rw [byteLength_append, byteLength_nil]
    omega

theorem byteLength_of_slice? (h : slice? text start stop = some part) :
    byteLength part = stop - start := by
  obtain ⟨before, after, -, rfl, rfl⟩ := slice?_eq_some_iff.1 h
  omega

theorem le_of_slice? (h : slice? text start stop = some part) :
    start ≤ stop ∧ stop ≤ byteLength text := by
  obtain ⟨before, after, rfl, rfl, rfl⟩ := slice?_eq_some_iff.1 h
  simp only [byteLength_append]
  omega

end

/-! ## Between separators -/

theorem splitOn_of_not_mem {separator : Char} {cs : List Char} (h : separator ∉ cs) :
    splitOn separator cs = [cs] := by
  induction cs with
  | nil => rfl
  | cons c cs ih =>
    have hc : c ≠ separator := fun hc => h (hc ▸ List.mem_cons_self)
    rw [splitOn, if_neg hc, ih fun hmem => h (List.mem_cons_of_mem _ hmem)]

theorem splitOn_append {separator : Char} {front : List Char} (h : separator ∉ front)
    (rest : List Char) :
    splitOn separator (front ++ separator :: rest) = front :: splitOn separator rest := by
  induction front with
  | nil => rw [List.nil_append, splitOn, if_pos rfl]
  | cons c front ih =>
    have hc : c ≠ separator := fun hc => h (hc ▸ List.mem_cons_self)
    rw [List.cons_append, splitOn, if_neg hc, ih fun hmem => h (List.mem_cons_of_mem _ hmem)]

/-- A text has no separator, or splits at the first one. -/
theorem exists_first_separator (separator : Char) (cs : List Char) :
    separator ∉ cs ∨ ∃ front rest, separator ∉ front ∧ cs = front ++ separator :: rest := by
  by_cases h : separator ∈ cs
  · obtain ⟨front, rest, rfl, hfront⟩ := List.eq_append_cons_of_mem h
    exact .inr ⟨front, rest, hfront, rfl⟩
  · exact .inl h

end Text
end UILayout
