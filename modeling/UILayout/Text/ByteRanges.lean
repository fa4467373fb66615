import UILayout.Text.CodeRanges

/-!
# UILayout.Text.ByteRanges

The UTF-8 forms of sets of characters, as sequences of byte ranges. A range of characters is cut until
in each piece the bytes vary independently: at the surrogates, where the length of the form changes,
and at multiples of powers of 64.
-/

namespace UILayout
namespace Text

def utf8Bytes (code : Nat) : List Nat :=
  if code < 0x80 then [code]
  else if code < 0x800 then [0xc0 + code / 64, 0x80 + code % 64]
  else if code < 0x10000 then [0xe0 + code / 4096, 0x80 + code / 64 % 64, 0x80 + code % 64]
  else
    [0xf0 + code / 262144, 0x80 + code / 4096 % 64, 0x80 + code / 64 % 64, 0x80 + code % 64]

/-- The bytes of several characters. -/
def utf8Text (text : List Char) : List Nat := text.flatMap fun c => utf8Bytes c.toNat

/-- A range of values for each byte of a form. -/
abbrev ByteSequence := List (Nat × Nat)

/-- Code points whose forms have one length; surrogates have none. -/
def formLengths : CodeRanges :=
  [(0, 0x7f), (0x80, 0x7ff), (0x800, 0xd7ff), (0xe000, 0xffff), (0x10000, 0x10ffff)]

/-- Cuts a range at multiples of `unit`, as far as it has to begin and end there, and what is left in
the middle at larger multiples. -/
def blocks : Nat → Nat → Nat → Nat → CodeRanges
  | 0, _, first, last => [(first, last)]
  | levels + 1, unit, first, last =>
    if first / unit = last / unit then [(first, last)]
    else
      let start := (first + (unit - 1)) / unit * unit
      let head := if first < start then [(first, start - 1)] else []
      if start / unit = last / unit then head ++ [(start, last)]
      else if last % unit = unit - 1 then head ++ blocks levels (unit * 64) start last
      else
        let stop := last / unit * unit
        head ++ blocks levels (unit * 64) start (stop - 1) ++ [(stop, last)]

/-- The forms of a range of characters, in order. -/
def byteSequences (first last : Nat) : List ByteSequence :=
  (CodeRanges.inter [(first, last)] formLengths).flatMap fun r =>
    (if r.2 < 0x80 then [r] else blocks 3 64 r.1 r.2).map fun b =>
      (utf8Bytes b.1).zip (utf8Bytes b.2)

end Text
end UILayout
