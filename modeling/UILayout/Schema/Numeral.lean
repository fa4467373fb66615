import UILayout.Text.Blank

/-!
# UILayout.Schema.Numeral

Numbers in attribute values: integers of any length, integers that are read into 128 bits, and decimal
numbers.
-/

namespace UILayout
namespace Schema

/-- The value of decimal digits, the first of which counts most. -/
def digitsValue (cs : List Char) : Nat := cs.foldl (fun n c => n * 10 + (c.toNat - '0'.toNat)) 0

/-- The number that at least one digit spells; nothing but ASCII digits counts. -/
def natural? (cs : List Char) : Option Nat :=
  if !cs.isEmpty && cs.all Char.isDigit then some (digitsValue cs) else none

/-- An integer: digits behind at most one sign. -/
def integer? : List Char → Option Int
  | '+' :: cs => (natural? cs).map Int.ofNat
  | '-' :: cs => (natural? cs).map fun n => -Int.ofNat n
  | cs => (natural? cs).map Int.ofNat

/-! ## Integers of 128 bits -/

/-- Half the number of integers of 128 bits. -/
def wideBound : Int := 170141183460469231731687303715884105728

/-- A number, if it fits into 128 bits. -/
def wide? (n : Int) : Option Int := if -wideBound ≤ n ∧ n < wideBound then some n else none

/-- Whether a sign is a minus, and what stands behind it. -/
def splitSign : List Char → Bool × List Char
  | '+' :: cs => (false, cs)
  | '-' :: cs => (true, cs)
  | cs => (false, cs)

/-- Reads digits from the left, where `n` has been read so far; behind a minus it counts down. A number on
the way that does not fit ends it, whatever comes then. -/
def readDigits? (negative : Bool) : Int → List Char → Option Int
  | n, [] => some n
  | n, c :: cs =>
    if c.isDigit then
      let digit := Int.ofNat (c.toNat - '0'.toNat)
      (wide? (n * 10)).bind fun tens =>
        (wide? (if negative then tens - digit else tens + digit)).bind fun next =>
          readDigits? negative next cs
    else none

/-- An integer of 128 bits: digits behind at most one sign. -/
def wideInteger? (cs : List Char) : Option Int :=
  let signed := splitSign cs
  if signed.2.isEmpty then none else readDigits? signed.1 0 signed.2

/-! ## Decimal numbers -/

/-- Is this an exponent, or nothing? -/
def isExponent : List Char → Bool
  | [] => true
  | c :: cs => (c = 'e' || c = 'E') && (integer? cs).isSome

/-- Digits with at most one dot among them, and an exponent behind them if there is one. -/
def isDecimal (cs : List Char) : Bool :=
  let whole := cs.takeWhile Char.isDigit
  match cs.dropWhile Char.isDigit with
  | '.' :: rest =>
    (!whole.isEmpty || !(rest.takeWhile Char.isDigit).isEmpty) &&
      isExponent (rest.dropWhile Char.isDigit)
  | rest => !whole.isEmpty && isExponent rest

/-- The words for numbers that have no digits, in any case. -/
def isSpecialNumber (cs : List Char) : Bool :=
  let lower := cs.map Char.toLower
  lower = ['i', 'n', 'f'] || lower = ['i', 'n', 'f', 'i', 'n', 'i', 't', 'y'] ||
    lower = ['n', 'a', 'n']

/-- Is this a number, with or without a sign? -/
def isNumber (cs : List Char) : Bool :=
  let unsigned :=
    match cs with
    | '+' :: rest => rest
    | '-' :: rest => rest
    | _ => cs
  isDecimal unsigned || isSpecialNumber unsigned

end Schema
end UILayout
