/-!
# UILayout.Json.Number

Numbers as double-precision arithmetic takes them: a whole significand below `2 ^ 64` times a power of
ten. Digits that no longer fit are cut off. The value is the product of the two, each rounded to 53
bits; a number whose product rounds to nothing finite is out of range.
-/

namespace UILayout

/-- The number `significand * 10 ^ exponent`, or the negative of it. -/
structure Decimal where
  negative : Bool
  significand : Nat
  exponent : Int
  deriving DecidableEq, Repr

namespace Decimal

def significandBound : Nat := Nat.pow 2 64

/-- The significand with one more digit, if it fits. -/
def push? (significand : Nat) (digit : Char) : Option Nat :=
  let n := significand * 10 + (digit.toNat - '0'.toNat)
  if n < significandBound then some n else none

/-- Takes the digits of a whole part. From the first that does not fit they count as zeros. -/
def whole (negative : Bool) (significand : Nat) : List Char → Decimal
  | [] => ⟨negative, significand, 0⟩
  | digit :: rest =>
    match push? significand digit with
    | some n => whole negative n rest
    | none => ⟨negative, significand, rest.length + 1⟩

/-- Takes the digits of a fraction, up to the first that does not fit. -/
def fraction (d : Decimal) : List Char → Decimal
  | [] => d
  | digit :: rest =>
    match push? d.significand digit with
    | some n => fraction ⟨d.negative, n, d.exponent - 1⟩ rest
    | none => d

/-- The nearest number of 53 bits; of two, the even one. -/
def round53 (n : Nat) : Nat :=
  let unit := Nat.pow 2 (n.log2 - 52)
  let rest := n % unit
  let below := n / unit
  if unit < 2 * rest ∨ (2 * rest = unit ∧ below % 2 = 1) then (below + 1) * unit else below * unit

/-- From here on numbers round to none that double precision holds. -/
def finiteBound : Nat := Nat.pow 2 1024 - Nat.pow 2 970

/-- Does double precision hold the number? Its sign makes no difference. The largest power of ten that it knows is the 308th. -/
def isFinite (d : Decimal) : Bool :=
  if d.significand = 0 ∨ d.exponent < 0 then true
  else if 308 < d.exponent then false
  else round53 d.significand * round53 (Nat.pow 10 d.exponent.toNat) < finiteBound

end Decimal

end UILayout
