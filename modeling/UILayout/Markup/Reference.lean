import UILayout.Markup.Fault
import UILayout.Text.Bytes

/-!
# UILayout.Markup.Reference

Character references in attribute values: five names and numbers in base ten or sixteen. `unescape`
replaces them all; `edges` tells where each lies in the value and in its raw form.
-/

namespace UILayout
namespace Markup

open Text

namespace Reference

def named? (name : List Char) : Option Char :=
  if name = ['l', 't'] then some '<'
  else if name = ['g', 't'] then some '>'
  else if name = ['a', 'm', 'p'] then some '&'
  else if name = ['a', 'p', 'o', 's'] then some '\''
  else if name = ['q', 'u', 'o', 't'] then some '"'
  else none

/-- The value of a digit in a base up to sixteen. -/
def digit? (base : Nat) (c : Char) : Option Nat :=
  let value? : Option Nat :=
    if '0' ≤ c ∧ c ≤ '9' then some (c.toNat - '0'.toNat)
    else if 'a' ≤ c ∧ c ≤ 'f' then some (c.toNat - 'a'.toNat + 10)
    else if 'A' ≤ c ∧ c ≤ 'F' then some (c.toNat - 'A'.toNat + 10)
    else none
  value?.filter (· < base)

/-- The number that starts with the digits of `value` and goes on with `cs`, below `2 ^ 32`. -/
def digits (base value : Nat) : List Char → Except CodeFault Nat
  | [] => .ok value
  | c :: cs =>
    match digit? base c with
    | none => .error .invalidDigit
    | some d =>
      if value * base + d < 4294967296 then digits base (value * base + d) cs else .error .tooLarge

/-- A number without a sign. -/
def number (base : Nat) (cs : List Char) : Except CodeFault Nat :=
  match cs with
  | [] => .error .empty
  | c :: _ => if c = '+' ∨ c = '-' then .error .sign else digits base 0 cs

def ofCode (code : Nat) : Except CodeFault Char :=
  if code = 0 then .error .nul
  else if code.isValidChar then .ok (Char.ofNat code)
  else .error (.invalidCode code)

/-- The character of `#digits` or `#xdigits`, without the `#`. -/
def numeric (cs : List Char) : Except CodeFault Char :=
  match cs with
  | 'x' :: hex => (number 16 hex).bind ofCode
  | _ => (number 10 cs).bind ofCode

/-- The character of `&name;`, where the name starts at byte `start` of the raw value. -/
def decode (start : Nat) (name : List Char) : Except Fault Char :=
  match name with
  | '#' :: code => (numeric code).mapError .invalidCode
  | _ =>
    match named? name with
    | some c => .ok c
    | none => .error (.unknownReference start (start + byteLength name) (String.ofList name))

/-- Cuts at the first semicolon: the name of a reference, and what follows it. -/
def splitName : List Char → Option (List Char × List Char)
  | [] => none
  | c :: cs => if c = ';' then some ([], cs) else (splitName cs).map fun p => (c :: p.1, p.2)

theorem splitName_eq_some {cs name rest : List Char} (h : splitName cs = some (name, rest)) :
    cs = name ++ ';' :: rest := by
  induction cs generalizing name with
  | nil => simp [splitName] at h
  | cons c cs ih =>
    simp only [splitName] at h
    split at h
    · simp_all
    · obtain ⟨⟨front, back⟩, hp, hq⟩ := Option.map_eq_some_iff.1 h
      cases hq
      simp [ih hp]

theorem length_splitName_rest {cs name rest : List Char} (h : splitName cs = some (name, rest)) :
    rest.length < cs.length := by
  rw [splitName_eq_some h]
  simp
  omega

/-- Replaces the references in `raw`, which starts at byte `pos` of a value of `length` bytes. -/
def unescapeFrom (length pos : Nat) (raw : List Char) : Except Fault (List Char) :=
  match raw with
  | [] => .ok []
  | c :: cs =>
    if c = '&' then
      match _h : splitName cs with
      | none => .error (.unterminatedReference pos length)
      | some (name, rest) =>
        if name.contains '&' then .error (.unterminatedReference pos length)
        else
          match decode (pos + 1) name with
          | .error fault => .error fault
          | .ok d => (unescapeFrom length (pos + byteLength name + 2) rest).map (d :: ·)
    else (unescapeFrom length (pos + c.utf8Size) cs).map (c :: ·)
  termination_by raw.length
  decreasing_by
    · have := length_splitName_rest _h
      simp only [List.length_cons]
      omega
    · simp

/-- The value that `raw` writes. -/
def unescape (raw : List Char) : Except Fault (List Char) := unescapeFrom (byteLength raw) 0 raw

/-- Pairs of an offset in the value and the offset in its raw form that corresponds to it, at both
ends of each reference. A reference that names no character counts as itself. -/
def edgesFrom (decoded pos : Nat) (raw : List Char) : List (Nat × Nat) :=
  match raw with
  | [] => []
  | c :: cs =>
    if c = '&' then
      match _h : splitName cs with
      | none => []
      | some (name, rest) =>
        let written := byteLength name + 2
        let width :=
          match decode 0 name with
          | .ok d => d.utf8Size
          | .error _ => written
        (decoded, pos) :: (decoded + width, pos + written) ::
          edgesFrom (decoded + width) (pos + written) rest
    else edgesFrom (decoded + c.utf8Size) (pos + c.utf8Size) cs
  termination_by raw.length
  decreasing_by
    · have := length_splitName_rest _h
      simp only [List.length_cons]
      omega
    · simp

def edges (raw : List Char) : List (Nat × Nat) := edgesFrom 0 0 raw

end Reference

end Markup
end UILayout
