import UILayout.Json.Value
import UILayout.Text.Bytes

/-!
# UILayout.Json.Token

Tokens of JSON texts. A fault inside a token ends the list with a `cutString` or `fault`
token; a character that starts no token is a fault too.

* `length_scalar_rest`: a scalar token leaves no more than it was given, so tokenizing ends.
-/

namespace UILayout

open Text

inductive JsonToken where
  | openBrace
  | closeBrace
  | openBracket
  | closeBracket
  | colon
  | comma
  | null
  | bool (value : Bool)
  | number (value : Decimal)
  | string (value : Except JsonCause String)
  /-- A string that breaks off: the cause for who wants its characters, and for who skips it. -/
  | cutString (strict skipping : JsonCause)
  /-- No token: the cause for who wants its value, and for who skips it. -/
  | fault (strict skipping : JsonCause)

namespace JsonToken

def isSpace (c : Char) : Bool := c = ' ' || c = '\n' || c = '\t' || c = '\r'

def hexDigit? (c : Char) : Option Nat :=
  if '0' ≤ c ∧ c ≤ '9' then some (c.toNat - '0'.toNat)
  else if 'a' ≤ c ∧ c ≤ 'f' then some (c.toNat - 'a'.toNat + 10)
  else if 'A' ≤ c ∧ c ≤ 'F' then some (c.toNat - 'A'.toNat + 10)
  else none

/-- The code unit that the next four digits spell. -/
def codeUnit (cs : List Char) : Except JsonCause Nat :=
  if byteLength cs < 4 then .error .ended
  else
    match (cs.take 4).mapM hexDigit? with
    | some [a, b, c, d] => .ok (((a * 16 + b) * 16 + c) * 16 + d)
    | _ => .error .malformed

/-- The second unit of a surrogate pair, which must be written as an escape right behind the first. -/
def lowSurrogate (cs : List Char) : Except JsonCause Nat :=
  match cs with
  | [] => .error .ended
  | c :: rest =>
    if c = '\\' then
      match rest with
      | [] => .error .ended
      | d :: rest' =>
        if d = 'u' then
          match codeUnit rest' with
          | .error cause => .error cause
          | .ok unit => if 0xDC00 ≤ unit ∧ unit ≤ 0xDFFF then .ok unit else .error .malformed
        else .error .malformed
    else .error .malformed

def simpleEscape? (c : Char) : Option Char :=
  if c = '"' ∨ c = '\\' ∨ c = '/' then some c
  else if c = 'b' then some (Char.ofNat 8)
  else if c = 'f' then some (Char.ofNat 12)
  else if c = 'n' then some '\n'
  else if c = 'r' then some '\r'
  else if c = 't' then some '\t'
  else none

/-- A string that was opened: its characters, or why it has none, and what follows it. -/
structure Quoted where
  token : JsonToken
  rest : List Char

/-- A string that breaks off. A fault met before is what a strict reader sees. -/
def Quoted.cut (fault? : Option JsonCause) (cause : JsonCause) : Quoted :=
  ⟨.cutString (fault?.getD cause) cause, []⟩

/-- Reads up to the closing quote. `done` holds the characters so far, last first; `fault?` the first
escape that spells no character, which matters only to who wants the characters. -/
def quoted (done : List Char) (fault? : Option JsonCause) : List Char → Quoted
  | [] => .cut fault? .ended
  | c :: cs =>
    if c = '"' then
      match fault? with
      | none => ⟨.string (.ok (String.ofList done.reverse)), cs⟩
      | some cause => ⟨.string (.error cause), cs⟩
    else if c.toNat < 0x20 then .cut fault? .malformed
    else if c = '\\' then
      match cs with
      | [] => .cut fault? .ended
      | e :: rest =>
        if e = 'u' then
          match codeUnit rest with
          | .error cause => .cut fault? cause
          | .ok unit =>
            let after := rest.drop 4
            if 0xDC00 ≤ unit ∧ unit ≤ 0xDFFF then quoted done (fault?.or (some .malformed)) after
            else if 0xD800 ≤ unit ∧ unit ≤ 0xDBFF then
              match lowSurrogate after with
              | .error cause => quoted done (fault?.or (some cause)) after
              | .ok low =>
                let c := Char.ofNat (0x10000 + (unit - 0xD800) * 0x400 + (low - 0xDC00))
                quoted (c :: done) fault? (after.drop 6)
            else quoted (Char.ofNat unit :: done) fault? after
        else
          match simpleEscape? e with
          | some c => quoted (c :: done) fault? rest
          | none => .cut fault? .malformed
    else quoted (c :: done) fault? cs
  termination_by cs => cs.length
  decreasing_by all_goals simp +zetaDelta [List.length_drop] <;> omega

def digits (cs : List Char) : List Char := cs.takeWhile Char.isDigit

def digitsValue (cs : List Char) : Nat := cs.foldl (fun n c => n * 10 + (c.toNat - '0'.toNat)) 0

/-- A fault at a place where a digit had to stand. Who skips a number does not care whether the text
ends there. -/
def missingDigit (cs : List Char) : JsonToken × List Char :=
  (.fault (if cs.isEmpty then .ended else .malformed) .malformed, [])

/-- The exponent of a number whose digits are known, if one follows. -/
def exponent (d : Decimal) (cs : List Char) : JsonToken × List Char :=
  match cs with
  | [] => (.number d, [])
  | e :: rest =>
    if e = 'e' ∨ e = 'E' then
      let unsigned := if rest.head? = some '-' ∨ rest.head? = some '+' then rest.drop 1 else rest
      let ds := digits unsigned
      if ds.isEmpty then missingDigit unsigned
      else
        let n : Int := digitsValue ds
        (.number { d with exponent := if rest.head? = some '-' then d.exponent - n else d.exponent + n },
          unsigned.drop ds.length)
    else (.number d, e :: rest)

/-- The fraction of a number whose whole part is known, if one follows. -/
def fraction (d : Decimal) (cs : List Char) : JsonToken × List Char :=
  match cs with
  | [] => (.number d, [])
  | p :: rest =>
    if p = '.' then
      let ds := digits rest
      if ds.isEmpty then missingDigit rest else exponent (d.fraction ds) (rest.drop ds.length)
    else exponent d (p :: rest)

/-- A number; no digit may follow a leading zero. -/
def numeral (negative : Bool) (cs : List Char) : JsonToken × List Char :=
  let ds := digits cs
  if ds.isEmpty then missingDigit cs
  else if ds.head? = some '0' ∧ 1 < ds.length then (.fault .malformed .malformed, [])
  else fraction (.whole negative 0 ds) (cs.drop ds.length)

/-- One of the words `null`, `true`, `false`, of which the first letter is read. -/
def literal (token : JsonToken) : List Char → List Char → JsonToken × List Char
  | [], cs => (token, cs)
  | _ :: _, [] => (.fault .ended .ended, [])
  | w :: ws, c :: cs => if w = c then literal token ws cs else (.fault .malformed .malformed, [])

def mark? (c : Char) : Option JsonToken :=
  if c = '\x7b' then some .openBrace
  else if c = '\x7d' then some .closeBrace
  else if c = '[' then some .openBracket
  else if c = ']' then some .closeBracket
  else if c = ':' then some .colon
  else if c = ',' then some .comma
  else none

/-- The token at the head of `c :: cs`, and what follows it. -/
def scalar (c : Char) (cs : List Char) : JsonToken × List Char :=
  match mark? c with
  | some token => (token, cs)
  | none =>
    if c = '"' then ((quoted [] none cs).token, (quoted [] none cs).rest)
    else if c = 'n' then literal .null ['u', 'l', 'l'] cs
    else if c = 't' then literal (.bool true) ['r', 'u', 'e'] cs
    else if c = 'f' then literal (.bool false) ['a', 'l', 's', 'e'] cs
    else if c = '-' then numeral true cs
    else if c.isDigit then numeral false (c :: cs)
    else (.fault .malformed .malformed, [])

theorem length_quoted_rest (done : List Char) (fault? : Option JsonCause) (cs : List Char) :
    (quoted done fault? cs).rest.length ≤ cs.length := by
  fun_induction quoted done fault? cs <;>
    simp_all +zetaDelta [Quoted.cut, List.length_drop] <;> omega

theorem length_exponent_rest (d : Decimal) (cs : List Char) :
    (exponent d cs).2.length ≤ cs.length := by
  unfold exponent
  split
  · simp
  · rename_i e rest
    split
    · simp only []
      have hle : (if rest.head? = some '-' ∨ rest.head? = some '+' then rest.drop 1 else rest).length
          ≤ rest.length := by
        split <;> simp
      generalize (if rest.head? = some '-' ∨ rest.head? = some '+' then rest.drop 1 else rest) = u at *
      split
      · simp [missingDigit]
      · simp only [List.length_drop, List.length_cons]
        omega
    · simp

theorem length_fraction_rest (d : Decimal) (cs : List Char) :
    (fraction d cs).2.length ≤ cs.length := by
  unfold fraction
  simp only []
  split
  · simp
  · split
    · split
      · simp [missingDigit]
      · refine Nat.le_trans (length_exponent_rest ..) ?_
        simp [List.length_drop]
        omega
    · exact length_exponent_rest ..

theorem length_literal_rest (t : JsonToken) (ws cs : List Char) :
    (literal t ws cs).2.length ≤ cs.length := by
  fun_induction literal t ws cs <;> simp_all
  omega

theorem length_numeral_rest (cs : List Char) :
    (numeral true cs).2.length ≤ cs.length := by
  unfold numeral
  simp only []
  split
  · simp [missingDigit]
  · split
    · simp
    · exact Nat.le_trans (length_fraction_rest ..) (by simp [List.length_drop])

theorem length_numeral_cons_rest (c : Char) (cs : List Char) (h : c.isDigit = true) :
    (numeral false (c :: cs)).2.length ≤ cs.length := by
  unfold numeral
  simp only []
  split
  · simp [missingDigit]
  · split
    · simp
    · refine Nat.le_trans (length_fraction_rest ..) ?_
      simp [List.length_drop, digits, h]

theorem length_scalar_rest (c : Char) (cs : List Char) : (scalar c cs).2.length ≤ cs.length := by
  unfold scalar
  split
  · exact Nat.le_refl _
  · split
    · exact length_quoted_rest ..
    · split
      · exact length_literal_rest ..
      · split
        · exact length_literal_rest ..
        · split
          · exact length_literal_rest ..
          · split
            · exact length_numeral_rest ..
            · split
              · exact length_numeral_cons_rest c cs (by assumption)
              · exact Nat.zero_le _

/-- The tokens of a text, up to the first fault. -/
def scan : List Char → List JsonToken
  | [] => []
  | c :: cs =>
    if isSpace c then scan cs
    else
      let t := scalar c cs
      match t.1 with
      | .fault strict skipping => [.fault strict skipping]
      | .cutString strict skipping => [.cutString strict skipping]
      | token => token :: scan t.2
  termination_by cs => cs.length
  decreasing_by
    all_goals
      have := length_scalar_rest c cs
      simp only [List.length_cons]
      omega

end JsonToken

end UILayout
