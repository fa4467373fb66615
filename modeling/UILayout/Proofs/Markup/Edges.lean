import Mathlib.Data.List.TakeWhile
import UILayout.Markup.Attribute
import UILayout.Markup.Reference
import UILayout.Proofs.Except

/-!
# UILayout.Proofs.Markup.Edges

How positions in the value of an attribute are carried over to the document. A reference is written
with at least as many bytes as the character takes that it stands for, so the raw form only ever gets
further ahead of the value: positions keep their order, and none leaves the raw form.

* `Reference.pairwise_edgesFrom`: the raw form gets ahead from edge to edge.
* `Attribute.sourceOffset_mono`: positions keep their order.
* `Attribute.sourceOffset_le_of_unescape`: a position in a value lies in the raw form of the value.
-/

namespace UILayout
namespace Markup

open Text

namespace Reference

/-- From the edge `e` to the edge `f`, the raw form goes on at least as far as the value does. -/
def Before (e f : Nat × Nat) : Prop := e.1 ≤ f.1 ∧ f.1 + e.2 ≤ f.2 + e.1

theorem Before.refl (e : Nat × Nat) : Before e e := ⟨Nat.le_refl _, by omega⟩

theorem Before.snd_le {e f : Nat × Nat} (h : Before e f) : e.2 ≤ f.2 := by
  obtain ⟨hfst, hahead⟩ := h
  omega

theorem Before.trans {e f g : Nat × Nat} (h : Before e f) (h' : Before f g) : Before e g := by
  obtain ⟨h₁, h₂⟩ := h
  obtain ⟨h₁', h₂'⟩ := h'
  exact ⟨Nat.le_trans h₁ h₁', by omega⟩

/-! ## The length of a reference -/

theorem length_of_named? {name : List Char} {c : Char} (h : named? name = some c) :
    2 ≤ byteLength name := by
  unfold named? at h
  repeat' split at h
  all_goals first
    | (rename_i hname; rw [hname]; decide)
    | cases h

theorem ne_nil_of_numeric {cs : List Char} {c : Char} (h : numeric cs = .ok c) : cs ≠ [] := by
  rintro rfl
  cases h

/-- A character takes no more bytes than a reference to it. -/
theorem utf8Size_le_of_decode {start : Nat} {name : List Char} {c : Char}
    (h : decode start name = .ok c) : c.utf8Size ≤ byteLength name + 2 := by
  have hname : 2 ≤ byteLength name := by
    unfold decode at h
    split at h
    · rename_i code
      cases hcode : numeric code with
      | error fault =>
        rw [hcode] at h
        cases h
      | ok d =>
        obtain ⟨d, ds, rfl⟩ := List.exists_cons_of_ne_nil (ne_nil_of_numeric hcode)
        have hhash := Char.utf8Size_pos '#'
        have hdigit := d.utf8Size_pos
        rw [byteLength_cons, byteLength_cons]
        omega
    · split at h
      · exact length_of_named? (by assumption)
      · cases h
  have hchar := c.utf8Size_le_four
  omega

/-- A reference is its name between two characters. -/
theorem byteLength_of_splitName {cs name rest : List Char} (h : splitName cs = some (name, rest)) :
    byteLength ('&' :: cs) = byteLength name + 2 + byteLength rest := by
  have hamp : '&'.utf8Size = 1 := rfl
  have hsemi : ';'.utf8Size = 1 := rfl
  simp only [splitName_eq_some h, byteLength_cons, byteLength_append, hamp, hsemi]
  omega

/-- Where a reference stands matters for its faults alone. -/
theorem decode_start {start : Nat} {name : List Char} {c : Char} (h : decode start name = .ok c)
    (start' : Nat) : decode start' name = .ok c := by
  unfold decode at h ⊢
  split at h
  · exact h
  · split at h
    · exact h
    · cases h

/-! ## Valid references -/

section

variable {length start decoded pos : Nat} {name rest cs raw value : List Char} {c : Char}

theorem splitName_append (h : ';' ∉ name) (rest : List Char) :
    splitName (name ++ ';' :: rest) = some (name, rest) := by
  induction name with
  | nil => rfl
  | cons c name ih =>
    have hc : c ≠ ';' := fun hc => h (hc ▸ List.mem_cons_self)
    have hrest := ih fun hmem => h (List.mem_cons_of_mem _ hmem)
    simp [splitName, hc, hrest]

theorem not_mem_of_splitName (h : splitName cs = some (name, rest)) : ';' ∉ name := by
  induction cs generalizing name with
  | nil => cases h
  | cons c cs ih =>
    unfold splitName at h
    split at h
    · cases h
      exact List.not_mem_nil
    · rename_i hc
      obtain ⟨⟨front, back⟩, hp, hq⟩ := Option.map_eq_some_iff.1 h
      cases hq
      rintro (_ | ⟨_, hmem⟩)
      · exact hc rfl
      · exact ih hp hmem

/-- A raw value with valid references, and the value that it writes. -/
inductive Unescapes : List Char → List Char → Prop where
  | nil : Unescapes [] []
  | reference {name rest value : List Char} {c : Char} : ';' ∉ name → '&' ∉ name →
      decode 0 name = .ok c → Unescapes rest value →
      Unescapes ('&' :: (name ++ ';' :: rest)) (c :: value)
  | char {c : Char} {rest value : List Char} : c ≠ '&' → Unescapes rest value →
      Unescapes (c :: rest) (c :: value)

theorem unescapes_of_unescapeFrom (h : unescapeFrom length start raw = .ok value) :
    Unescapes raw value := by
  fun_induction unescapeFrom length start raw generalizing value with
  | case1 =>
    cases h
    exact .nil
  | case2 => cases h
  | case3 => cases h
  | case4 => cases h
  | case5 start cs name rest hsplit hamp c hc ih =>
    obtain ⟨value', hrest, rfl⟩ := exists_of_map_eq_ok h
    rw [splitName_eq_some hsplit]
    exact .reference (not_mem_of_splitName hsplit) (by simpa using hamp) (decode_start hc 0) (ih hrest)
  | case6 start c cs hc ih =>
    obtain ⟨value', hrest, rfl⟩ := exists_of_map_eq_ok h
    exact .char hc (ih hrest)

theorem Unescapes.unescapeFrom (h : Unescapes raw value) (length start : Nat) :
    unescapeFrom length start raw = .ok value := by
  induction h generalizing start with
  | nil => rw [Reference.unescapeFrom]
  | @reference name rest value c hsemi hamp hc _ ih =>
    rw [Reference.unescapeFrom, if_pos rfl]
    split
    · rename_i hnone
      rw [splitName_append hsemi] at hnone
      cases hnone
    · rename_i hsome
      rw [splitName_append hsemi] at hsome
      cases hsome
      simp [hamp, decode_start hc, ih, Except.map]
  | char hc _ ih =>
    rw [Reference.unescapeFrom, if_neg hc, ih, Except.map]

theorem unescape_eq_ok_iff : unescape raw = .ok value ↔ Unescapes raw value :=
  ⟨unescapes_of_unescapeFrom, fun h => h.unescapeFrom _ _⟩

end

/-! ## Edges -/

theorem pairwise_edgesFrom (decoded pos : Nat) (raw : List Char) :
    (edgesFrom decoded pos raw).Pairwise Before ∧
      ∀ e ∈ edgesFrom decoded pos raw, Before (decoded, pos) e := by
  fun_induction edgesFrom decoded pos raw with
  | case1 => simp
  | case2 => simp
  | case3 decoded pos cs name rest hsplit written width ih =>
    obtain ⟨hpairs, hfirst⟩ := ih
    have hwidth : width ≤ written := by
      unfold width
      split
      · exact utf8Size_le_of_decode (by assumption)
      · exact Nat.le_refl _
    have hover : Before (decoded, pos) (decoded + width, pos + written) :=
      ⟨Nat.le_add_right _ _, by simp only; omega⟩
    refine ⟨?_, ?_⟩
    · rw [List.pairwise_cons, List.pairwise_cons]
      refine ⟨?_, hfirst, hpairs⟩
      rintro e (_ | ⟨_, he⟩)
      · exact hover
      · exact hover.trans (hfirst e he)
    · rintro e (_ | ⟨_, _ | ⟨_, he⟩⟩)
      · exact .refl _
      · exact hover
      · exact hover.trans (hfirst e he)
  | case4 decoded pos c cs hc ih =>
    obtain ⟨hpairs, hfirst⟩ := ih
    have hover : Before (decoded, pos) (decoded + c.utf8Size, pos + c.utf8Size) :=
      ⟨Nat.le_add_right _ _, by simp only; omega⟩
    exact ⟨hpairs, fun e he => hover.trans (hfirst e he)⟩

/-- The start of a value counts as an edge. -/
theorem pairwise_edges (raw : List Char) : ((0, 0) :: edges raw).Pairwise Before :=
  have ⟨hpairs, hfirst⟩ := pairwise_edgesFrom 0 0 raw
  List.pairwise_cons.2 ⟨hfirst, hpairs⟩

theorem le_of_mem_edgesFrom {decoded pos : Nat} {raw : List Char} {e : Nat × Nat}
    (h : e ∈ edgesFrom decoded pos raw) : e.2 ≤ pos + byteLength raw := by
  fun_induction edgesFrom decoded pos raw with
  | case1 => cases h
  | case2 => cases h
  | case3 decoded pos cs name rest hsplit written width ih =>
    rw [byteLength_of_splitName hsplit]
    rcases h with _ | ⟨_, _ | ⟨_, h⟩⟩
    · simp only
      omega
    · simp only
      omega
    · have := ih h
      omega
  | case4 decoded pos c cs hc ih =>
    rw [byteLength_cons]
    have := ih h
    omega

section

variable {decoded pos : Nat} {name rest raw value : List Char} {c : Char}

theorem edgesFrom_reference (hsemi : ';' ∉ name) (hc : decode 0 name = .ok c) :
    edgesFrom decoded pos ('&' :: (name ++ ';' :: rest)) =
      (decoded, pos) :: (decoded + c.utf8Size, pos + (byteLength name + 2)) ::
        edgesFrom (decoded + c.utf8Size) (pos + (byteLength name + 2)) rest := by
  rw [edgesFrom, if_pos rfl]
  split
  · rename_i hnone
    rw [splitName_append hsemi] at hnone
    cases hnone
  · rename_i hsome
    rw [splitName_append hsemi] at hsome
    cases hsome
    simp only [hc]

/-- No edge comes after the end, where the raw form is ahead of the value by the most. -/
theorem Unescapes.before_end (h : Unescapes raw value) (decoded pos : Nat) :
    byteLength value ≤ byteLength raw ∧
      ∀ e ∈ edgesFrom decoded pos raw, Before e (decoded + byteLength value, pos + byteLength raw) := by
  induction h generalizing decoded pos with
  | nil => simp [edgesFrom]
  | @reference name rest value c hsemi hamp hc _ ih =>
    have hwidth := utf8Size_le_of_decode hc
    obtain ⟨hle, hends⟩ := ih (decoded + c.utf8Size) (pos + (byteLength name + 2))
    rw [byteLength_of_splitName (splitName_append hsemi rest), byteLength_cons, ← Nat.add_assoc decoded,
      ← Nat.add_assoc pos, edgesFrom_reference hsemi hc]
    refine ⟨by omega, ?_⟩
    rintro e (_ | ⟨_, _ | ⟨_, he⟩⟩)
    · exact ⟨by simp only; omega, by simp only; omega⟩
    · exact ⟨Nat.le_add_right _ _, by simp only; omega⟩
    · exact hends e he
  | @char c rest value hc _ ih =>
    obtain ⟨hle, hends⟩ := ih (decoded + c.utf8Size) (pos + c.utf8Size)
    rw [byteLength_cons, byteLength_cons, ← Nat.add_assoc decoded, ← Nat.add_assoc pos, edgesFrom,
      if_neg hc]
    exact ⟨by omega, hends⟩

end

end Reference

/-! ## Positions -/

namespace Attribute

open Reference

/-- A side of the edges by which they are passed: it is zero at the start of the value, and does not fall
from an edge to a later one. -/
structure Ranks (key : Nat × Nat → Nat) : Prop where
  zero : key (0, 0) = 0
  mono : ∀ {e f : Nat × Nat}, Before e f → key e ≤ key f

theorem ranks_fst : Ranks (·.1) := ⟨rfl, fun h => h.1⟩

theorem ranks_snd : Ranks (·.2) := ⟨rfl, fun h => h.snd_le⟩

section

variable {key : Nat × Nat → Nat} {es : List (Nat × Nat)}

/-- The edge that counts for a position is the last one that is passed. -/
theorem lastEdge_split (hkey : Ranks key) (position : Nat) (es : List (Nat × Nat)) : ∃ passed,
    (0, 0) :: es =
        passed ++ lastEdge key position es :: es.dropWhile (fun e => key e ≤ position) ∧
      ∀ f ∈ passed ++ [lastEdge key position es], key f ≤ position := by
  have hlast : ((0, 0) :: es.takeWhile fun e => key e ≤ position).getLast? =
      some (lastEdge key position es) := List.getLast?_cons
  obtain ⟨passed, hpassed⟩ := List.getLast?_eq_some_iff.1 hlast
  refine ⟨passed, ?_, ?_⟩
  · rw [List.append_cons, ← hpassed, List.cons_append, List.takeWhile_append_dropWhile]
  · rw [← hpassed]
    rintro f (_ | ⟨_, hf⟩)
    · exact hkey.zero.trans_le (Nat.zero_le _)
    · simpa using List.mem_takeWhile_imp hf

theorem key_lastEdge_le (hkey : Ranks key) (position : Nat) (es : List (Nat × Nat)) :
    key (lastEdge key position es) ≤ position :=
  have ⟨_, _, hpassed⟩ := lastEdge_split hkey position es
  hpassed _ (List.mem_append_right _ (List.mem_singleton_self _))

theorem le_lastEdge (position : Nat) (escapes : List (Nat × Nat)) :
    (lastEdge (·.1) position escapes).1 ≤ position := key_lastEdge_le ranks_fst position escapes

theorem lastEdge_mem (hkey : Ranks key) (position : Nat) (es : List (Nat × Nat)) :
    lastEdge key position es ∈ (0, 0) :: es := by
  obtain ⟨passed, hsplit, -⟩ := lastEdge_split hkey position es
  rw [hsplit]
  exact List.mem_append_right _ List.mem_cons_self

theorem lt_key_of_mem_dropWhile (hkey : Ranks key) (hes : es.Pairwise Before) {position : Nat}
    {f : Nat × Nat} (hf : f ∈ es.dropWhile fun e => key e ≤ position) : position < key f := by
  have hahead := hes.sublist (List.dropWhile_sublist fun e => decide (key e ≤ position))
  have hhead := List.head?_dropWhile_not (fun e => decide (key e ≤ position)) es
  cases h : es.dropWhile fun e => decide (key e ≤ position) with
  | nil =>
    rw [h] at hf
    cases hf
  | cons next more =>
    rw [h] at hahead hhead hf
    have hnext : position < key next := by simpa using hhead
    rcases hf with _ | ⟨_, hf⟩
    · exact hnext
    · exact hnext.trans_le (hkey.mono ((List.pairwise_cons.1 hahead).1 f hf))

/-- The edges that are passed stand before the one that counts, and it stands before the others. -/
theorem lastEdge_spec (hkey : Ranks key) (hes : ((0, 0) :: es).Pairwise Before) (position : Nat) :
    ∀ f ∈ (0, 0) :: es, (key f ≤ position → Before f (lastEdge key position es)) ∧
      (position < key f → Before (lastEdge key position es) f) := by
  obtain ⟨passed, hsplit, hpassed⟩ := lastEdge_split hkey position es
  have hbehind : ∀ f ∈ es.dropWhile fun e => key e ≤ position, position < key f :=
    fun f => lt_key_of_mem_dropWhile hkey (List.pairwise_cons.1 hes).2
  rw [hsplit] at hes ⊢
  obtain ⟨-, hlater, hover⟩ := List.pairwise_append.1 hes
  intro f hf
  rcases List.mem_append.1 hf with hf | hf
  · have hle := hpassed f (List.mem_append_left _ hf)
    exact ⟨fun _ => hover f hf _ List.mem_cons_self, fun hlt => absurd hlt (Nat.not_lt.2 hle)⟩
  · rcases hf with _ | ⟨_, hf⟩
    · exact ⟨fun _ => .refl _, fun _ => .refl _⟩
    · exact ⟨fun hle => absurd hle (Nat.not_le.2 (hbehind f hf)),
        fun _ => (List.pairwise_cons.1 hlater).1 f hf⟩

/-- The edge that counts for a position does not come after the one that counts for a later position. -/
theorem lastEdge_before (hkey : Ranks key) (hes : ((0, 0) :: es).Pairwise Before) {p q : Nat}
    (hpq : p ≤ q) : Before (lastEdge key p es) (lastEdge key q es) :=
  (lastEdge_spec hkey hes q _ (lastEdge_mem hkey p es)).1 ((key_lastEdge_le hkey p es).trans hpq)

end

variable {a : Attribute} {written : List Char}

theorem sourceOffset_mono (ha : a.escapes = edges written) {p q : Nat} (hpq : p ≤ q) :
    a.sourceOffset p ≤ a.sourceOffset q := by
  obtain ⟨hle, hahead⟩ := lastEdge_before ranks_fst (pairwise_edges written) hpq
  have hp := le_lastEdge p (edges written)
  have hq := le_lastEdge q (edges written)
  unfold sourceOffset
  rw [ha]
  dsimp only
  omega

theorem sourceOffset_le (ha : a.escapes = edges written) (p : Nat) :
    a.sourceOffset p ≤ a.contentStart + byteLength written + p := by
  have hedge : (lastEdge (·.1) p (edges written)).2 ≤ byteLength written := by
    rcases List.mem_cons.1 (lastEdge_mem ranks_fst p (edges written)) with h | h
    · rw [h]
      exact Nat.zero_le _
    · have := le_of_mem_edgesFrom h
      omega
  unfold sourceOffset
  rw [ha]
  dsimp only
  omega

theorem sourceOffset_le_of_unescape (ha : a.escapes = edges written) {value : List Char}
    (hvalue : unescape written = .ok value) {p : Nat} (hp : p ≤ byteLength value) :
    a.sourceOffset p ≤ a.contentStart + byteLength written := by
  obtain ⟨hle, hends⟩ := (unescape_eq_ok_iff.1 hvalue).before_end 0 0
  have hstart := le_lastEdge p (edges written)
  have hedge : (lastEdge (·.1) p (edges written)).2 + byteLength value ≤
      byteLength written + (lastEdge (·.1) p (edges written)).1 := by
    rcases List.mem_cons.1 (lastEdge_mem ranks_fst p (edges written)) with h | h
    · rw [h]
      simpa using hle
    · have := (hends _ h).2
      simp only at this
      omega
  unfold sourceOffset
  rw [ha]
  dsimp only
  omega

end Attribute

end Markup
end UILayout
