import Mathlib.Data.Nat.Digits.Defs
import UILayout.Schema.Value

/-!
# UILayout.Proofs.Schema.Integers

Integers as attribute values. A type of an integer kind accepts a value just when this is, without the white
space around it, digits behind at most one sign, and the kind has the number that they spell. Reading stops
where a number does not fit into 128 bits; what comes then only leads away from zero, so the number that is
spelled does not fit either, and no kind has it.

* `Padded.trim_eq`: a text without the white space around it.
* `readDigits?_eq_some_iff`, `wideInteger?_eq_some_iff`: what is read within 128 bits.
* `integer_accepted_iff`: the values that an integer kind accepts.
-/

namespace UILayout
namespace Schema

open Text

/-! ## White space around a text -/

/-- A text is another one with nothing but white space around it. -/
def Padded (text mid : List Char) : Prop :=
  ∃ front back, text = front ++ (mid ++ back) ∧ (∀ c ∈ front, isBlankChar c = true) ∧
    ∀ c ∈ back, isBlankChar c = true

section

variable {text mid : List Char}

theorem padded_trim (text : List Char) : Padded text (trim text) := by
  have hblank : ∀ cs : List Char, ∀ c ∈ cs.takeWhile isBlankChar, isBlankChar c = true :=
    fun cs => List.all_eq_true.1 List.all_takeWhile
  refine ⟨text.takeWhile isBlankChar,
    ((text.dropWhile isBlankChar).reverse.takeWhile isBlankChar).reverse, ?_, hblank text, ?_⟩
  · rw [trim, ← List.reverse_append, List.takeWhile_append_dropWhile, List.reverse_reverse,
      List.takeWhile_append_dropWhile]
  · intro c hc
    exact hblank _ c (List.mem_reverse.1 hc)

theorem Padded.trim_eq (h : Padded text mid) (hne : mid ≠ [])
    (hmid : ∀ c ∈ mid, isBlankChar c = false) : trim text = mid := by
  obtain ⟨front, back, rfl, hfront, hback⟩ := h
  -- Neither end of what stands between is white space, so it is left whole from both sides.
  have hkept : ∀ {cs rest : List Char}, cs ≠ [] → (∀ c ∈ cs, isBlankChar c = false) →
      (cs ++ rest).dropWhile isBlankChar = cs ++ rest := by
    intro cs rest hcs hall
    obtain ⟨c, cs, rfl⟩ := List.exists_cons_of_ne_nil hcs
    rw [List.cons_append, List.dropWhile_cons_of_neg]
    rw [hall c List.mem_cons_self]
    exact Bool.false_ne_true
  have hback' : ∀ c ∈ back.reverse, isBlankChar c = true := fun c hc => hback c (List.mem_reverse.1 hc)
  have hmid' : ∀ c ∈ mid.reverse, isBlankChar c = false := fun c hc => hmid c (List.mem_reverse.1 hc)
  have hwhole : (mid.reverse ++ []).dropWhile isBlankChar = mid.reverse ++ [] :=
    hkept (List.reverse_ne_nil_iff.2 hne) hmid'
  rw [List.append_nil] at hwhole
  rw [trim, List.dropWhile_append_of_pos hfront, hkept hne hmid, List.reverse_append,
    List.dropWhile_append_of_pos hback', hwhole, List.reverse_reverse]

end

/-! ## Numerals -/

/-- Decimal digits, one at least. -/
def IsNumeral (cs : List Char) : Prop := cs ≠ [] ∧ ∀ c ∈ cs, c.isDigit = true

/-- The number that decimal digits spell, the last of which counts least. -/
def decimal (cs : List Char) : Nat := Nat.ofDigits 10 (cs.reverse.map fun c => c.toNat - '0'.toNat)

/-- A text spells an integer: a numeral, behind a sign if there is one. -/
inductive Spells : List Char → Int → Prop where
  | unsigned {cs} (h : IsNumeral cs) : Spells cs (decimal cs)
  | plus {cs} (h : IsNumeral cs) : Spells ('+' :: cs) (decimal cs)
  | minus {cs} (h : IsNumeral cs) : Spells ('-' :: cs) (-decimal cs)

/-- A number with a sign, which may be a minus. -/
def signed (negative : Bool) (n : Nat) : Int := if negative then -n else n

/-- A number fits into 128 bits. -/
def Wide (n : Int) : Prop := -wideBound ≤ n ∧ n < wideBound

theorem decimal_cons (c : Char) (cs : List Char) :
    decimal (c :: cs) = (c.toNat - '0'.toNat) * 10 ^ cs.length + decimal cs := by
  rw [decimal, List.reverse_cons, List.map_append, Nat.ofDigits_append, List.length_map,
    List.length_reverse, List.map_singleton, Nat.ofDigits_singleton, Nat.add_comm, Nat.mul_comm]
  rfl

theorem digit_not_blank {c : Char} (h : c.isDigit = true) : isBlankChar c = false := by
  obtain ⟨hfirst, hlast⟩ := Char.isDigit_iff_toNat.1 h
  change 48 ≤ c.toNat at hfirst
  change c.toNat ≤ 57 at hlast
  simp only [isBlankChar, blankRanges, CodeRanges.mem, List.any_cons, List.any_nil, Bool.or_false,
    Bool.or_eq_false_iff, Bool.and_eq_false_iff, decide_eq_false_iff_not]
  omega

section

variable {cs : List Char} {n : Int}

theorem Spells.ne_nil (h : Spells cs n) : cs ≠ [] := by
  cases h with
  | unsigned h => exact h.1
  | plus h => exact List.cons_ne_nil _ _
  | minus h => exact List.cons_ne_nil _ _

theorem Spells.not_blank (h : Spells cs n) : ∀ c ∈ cs, isBlankChar c = false := by
  cases h with
  | unsigned h => exact fun c hc => digit_not_blank (h.2 c hc)
  | plus h =>
    rintro c (_ | ⟨_, hc⟩)
    · decide
    · exact digit_not_blank (h.2 c hc)
  | minus h =>
    rintro c (_ | ⟨_, hc⟩)
    · decide
    · exact digit_not_blank (h.2 c hc)

theorem splitSign_of_numeral (h : IsNumeral cs) : splitSign cs = (false, cs) := by
  unfold splitSign
  split
  · exact absurd (h.2 '+' List.mem_cons_self) (by decide)
  · exact absurd (h.2 '-' List.mem_cons_self) (by decide)
  · rfl

theorem spells_iff : Spells cs n ↔
    IsNumeral (splitSign cs).2 ∧ n = signed (splitSign cs).1 (decimal (splitSign cs).2) := by
  constructor
  · intro h
    cases h with
    | unsigned h =>
      rw [splitSign_of_numeral h]
      exact ⟨h, rfl⟩
    | plus h => exact ⟨h, rfl⟩
    | minus h => exact ⟨h, rfl⟩
  · rintro ⟨h, rfl⟩
    revert h
    unfold splitSign
    split
    · exact .plus
    · exact .minus
    · exact .unsigned

end

/-! ## Reading in 128 bits -/

theorem wide?_eq_some_iff {n m : Int} : wide? n = some m ↔ n = m ∧ Wide n := by
  unfold wide? Wide
  split
  · rename_i h
    simp [h]
  · rename_i h
    simp [h]

/-- What is nearer to zero fits as well. -/
theorem Wide.of_le {negative : Bool} {m n : Nat} (h : Wide (signed negative n)) (hle : m ≤ n) :
    Wide (signed negative m) := by
  unfold Wide wideBound signed at *
  cases negative
  · simp only [Bool.false_eq_true, if_false] at h ⊢
    omega
  · simp only [if_true] at h ⊢
    omega

/-- One more digit, if all fits that is worked out on the way. -/
theorem readDigits?_cons {negative : Bool} {m : Nat} {c : Char} {cs : List Char} {n : Int}
    (hc : c.isDigit = true) :
    readDigits? negative (signed negative m) (c :: cs) = some n ↔
      Wide (signed negative (m * 10 + (c.toNat - '0'.toNat))) ∧
        readDigits? negative (signed negative (m * 10 + (c.toNat - '0'.toNat))) cs = some n := by
  have htens : signed negative m * 10 = signed negative (m * 10) := by
    unfold signed
    split
    · push_cast
      omega
    · push_cast
      omega
  have hnext : (if negative then signed negative (m * 10) - Int.ofNat (c.toNat - '0'.toNat)
      else signed negative (m * 10) + Int.ofNat (c.toNat - '0'.toNat)) =
        signed negative (m * 10 + (c.toNat - '0'.toNat)) := by
    unfold signed
    split
    · simp
      omega
    · simp
  rw [readDigits?, if_pos hc]
  simp only [Option.bind_eq_some_iff, wide?_eq_some_iff, htens]
  constructor
  · rintro ⟨tens, ⟨rfl, -⟩, next, ⟨rfl, hwide⟩, hread⟩
    rw [hnext] at hwide hread
    exact ⟨hwide, hread⟩
  · rintro ⟨hwide, hread⟩
    refine ⟨_, ⟨rfl, hwide.of_le (Nat.le_add_right _ _)⟩, _, ⟨rfl, ?_⟩, ?_⟩ <;> rwa [hnext]

/-- Reading comes to the number that is spelled, if that fits. -/
theorem readDigits?_eq_some_iff {negative : Bool} {m : Nat} {cs : List Char} {n : Int}
    (hm : Wide (signed negative m)) :
    readDigits? negative (signed negative m) cs = some n ↔
      (∀ c ∈ cs, c.isDigit = true) ∧ n = signed negative (m * 10 ^ cs.length + decimal cs) ∧ Wide n := by
  induction cs generalizing m with
  | nil =>
    have hnil : m * 10 ^ ([] : List Char).length + decimal [] = m := by simp [decimal]
    rw [readDigits?, hnil]
    constructor
    · rintro ⟨rfl⟩
      exact ⟨nofun, rfl, hm⟩
    · rintro ⟨-, rfl, -⟩
      rfl
  | cons c cs ih =>
    by_cases hc : c.isDigit = true
    · have hvalue : m * 10 ^ (c :: cs).length + decimal (c :: cs) =
          (m * 10 + (c.toNat - '0'.toNat)) * 10 ^ cs.length + decimal cs := by
        rw [decimal_cons, List.length_cons, pow_succ]
        ring
      rw [readDigits?_cons hc, hvalue, List.forall_mem_cons]
      constructor
      · rintro ⟨hwide, hread⟩
        obtain ⟨hdigits, hn, hfits⟩ := (ih hwide).1 hread
        exact ⟨⟨hc, hdigits⟩, hn, hfits⟩
      · rintro ⟨⟨-, hdigits⟩, rfl, hfits⟩
        have hwide := hfits.of_le (Nat.le_add_right_of_le (Nat.le_mul_of_pos_right
          (m * 10 + (c.toNat - '0'.toNat)) (Nat.pow_pos (n := cs.length) (by decide))))
        exact ⟨hwide, (ih hwide).2 ⟨hdigits, rfl, hfits⟩⟩
    · rw [readDigits?, if_neg hc]
      constructor
      · exact nofun
      · rintro ⟨hdigits, -, -⟩
        exact absurd (hdigits c List.mem_cons_self) hc

theorem wideInteger?_eq_some_iff {cs : List Char} {n : Int} :
    wideInteger? cs = some n ↔ Spells cs n ∧ Wide n := by
  have hzero : Wide (signed (splitSign cs).1 0) := by
    unfold Wide wideBound signed
    split <;> decide
  have hread : readDigits? (splitSign cs).1 (signed (splitSign cs).1 0) (splitSign cs).2 = some n ↔ _ :=
    readDigits?_eq_some_iff hzero
  rw [Nat.zero_mul, Nat.zero_add] at hread
  have hstart : signed (splitSign cs).1 0 = 0 := by
    unfold signed
    split <;> rfl
  rw [hstart] at hread
  rw [spells_iff, wideInteger?]
  split
  · rename_i hempty
    constructor
    · exact nofun
    · rintro ⟨⟨⟨hne, -⟩, -⟩, -⟩
      exact absurd (List.isEmpty_iff.1 hempty) hne
  · rename_i hempty
    rw [hread, IsNumeral, and_assoc, and_assoc, and_iff_right (mt List.isEmpty_iff.2 hempty)]

/-! ## Integer kinds -/

/-- The integer kinds: whether they have numbers below zero, and how many bits they have. -/
def Builtin.width? : Builtin → Option (Bool × Nat)
  | .uint8 => some (false, 8)
  | .uint16 => some (false, 16)
  | .uint32 => some (false, 32)
  | .uint64 => some (false, 64)
  | .int8 => some (true, 8)
  | .int16 => some (true, 16)
  | .int32 => some (true, 32)
  | .int64 => some (true, 64)
  | _ => none

/-- The integers of a width, half of which are below zero if any are. -/
def InWidth (below : Bool) (bits : Nat) (n : Int) : Prop :=
  if below then -2 ^ (bits - 1) ≤ n ∧ n < 2 ^ (bits - 1) else 0 ≤ n ∧ n < 2 ^ bits

theorem intRange?_of_width? {b : Builtin} {below : Bool} {bits : Nat}
    (h : b.width? = some (below, bits)) : ∃ least greatest, b.intRange? = some (least, greatest) ∧
      ∀ n, (least ≤ n ∧ n ≤ greatest ↔ InWidth below bits n) ∧ (InWidth below bits n → Wide n) := by
  unfold Wide wideBound
  cases b <;> cases h <;> refine ⟨_, _, rfl, fun n => ?_⟩ <;> simp [InWidth] <;> omega

theorem checkBuiltin_eq_ok_iff {b : Builtin} {below : Bool} {bits : Nat}
    (h : b.width? = some (below, bits)) (value : List Char) :
    checkBuiltin value b = .ok () ↔
      ∃ numeral n, Padded value numeral ∧ Spells numeral n ∧ InWidth below bits n := by
  obtain ⟨least, greatest, hrange, hfits⟩ := intRange?_of_width? h
  have hchecked : checkBuiltin value b = .ok () ↔
      ∃ n, wideInteger? (trim value) = some n ∧ least ≤ n ∧ n ≤ greatest := by
    unfold checkBuiltin
    rw [hrange]
    cases wideInteger? (trim value) with
    | none => simp
    | some n => simp
  rw [hchecked]
  constructor
  · rintro ⟨n, hread, hn⟩
    exact ⟨trim value, n, padded_trim value, (wideInteger?_eq_some_iff.1 hread).1, ((hfits n).1).1 hn⟩
  · rintro ⟨numeral, n, hpadded, hspells, hn⟩
    rw [hpadded.trim_eq hspells.ne_nil hspells.not_blank]
    exact ⟨n, wideInteger?_eq_some_iff.2 ⟨hspells, (hfits n).2 hn⟩, ((hfits n).1).2 hn⟩

/-- A type of an integer kind accepts the empty value if it may be left empty, and besides the values that
spell, with white space around them or none, an integer of its width. -/
theorem integer_accepted_iff {s : Schema} {id : SimpleTypeId} {t : SimpleType}
    (ht : s.simpleTypes[id]? = some t) (hkind : t.kind = .default) {below : Bool} {bits : Nat}
    (hwidth : t.builtin.width? = some (below, bits)) (value : String) :
    s.checkValue value id = .ok () ↔ (value = "" ∧ t.nullable = true) ∨
      ∃ numeral n, Padded value.toList numeral ∧ Spells numeral n ∧ InWidth below bits n := by
  rw [checkValue, checkValueAt, ht, ← checkBuiltin_eq_ok_iff hwidth]
  simp only [hkind]
  split
  · rename_i hempty
    obtain ⟨hnullable, hvalue⟩ := Bool.and_eq_true_iff.1 hempty
    exact iff_of_true rfl (.inl ⟨String.isEmpty_iff.1 hvalue, hnullable⟩)
  · rename_i hempty
    rw [or_iff_right]
    rintro ⟨rfl, hnullable⟩
    exact hempty (by rw [hnullable]; rfl)

/-- A schema with nothing but a type of an integer kind, which may not be left empty. -/
def soleInteger (b : Builtin) : Schema :=
  ⟨#[⟨"Number", .default, b, false, none, .empty, [], [], none⟩], #[], #[], #[], #[], #[], 0⟩

/-- With forty zeros in front, and white space of several kinds, the least number of its width is accepted. -/
theorem integer_accepted_padded : ∃ t, (soleInteger .int8).simpleTypes[0]? = some t ∧
    t.kind = .default ∧ t.builtin.width? = some (true, 8) ∧
      (soleInteger .int8).checkValue
        (String.ofList ('\u00a0' :: '-' :: List.replicate 40 '0' ++ "128\u3000 ".toList)) 0 = .ok () := by
  have hnumeral : IsNumeral (List.replicate 40 '0' ++ "128".toList) :=
    ⟨List.cons_ne_nil _ _, List.all_eq_true.1 rfl⟩
  have hvalue : decimal (List.replicate 40 '0' ++ "128".toList) = 128 := by decide +kernel
  have hspells := Spells.minus hnumeral
  rw [hvalue] at hspells
  have hwidth : InWidth true 8 (-128) := by
    unfold InWidth
    decide
  refine ⟨_, rfl, rfl, rfl, (integer_accepted_iff rfl rfl rfl _).2 (.inr ⟨_, _, ?_, hspells, hwidth⟩)⟩
  rw [String.toList_ofList]
  exact ⟨['\u00a0'], "\u3000 ".toList, rfl, List.all_eq_true.1 rfl, List.all_eq_true.1 rfl⟩

end Schema
end UILayout
