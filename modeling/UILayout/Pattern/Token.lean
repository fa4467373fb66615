import UILayout.Pattern.CharClass
import UILayout.Pattern.Syntax
import UILayout.Text.Letter

/-!
# UILayout.Pattern.Token

Tokens of pattern texts. A token knows how many characters it takes, so that the text is cut in one
pass over its characters.

Supported are literals, `.`, escapes, classes in brackets, groups with or without a name, the flag
`i`, alternation, `^`, `$`, and repetition, greedy or lazy.
-/

namespace UILayout

open Text

inductive PatternToken where
  /-- A pattern by itself, and how deep it is nested. -/
  | item (p : Pattern) (depth : Nat)
  /-- The start of a group: whether it is counted, its name, and whether it changes how case counts. -/
  | opening (counted : Bool) (name? : Option (List Char)) (caseless? : Option Bool)
  /-- A change of how case counts, up to the end of the group. -/
  | setCaseless (caseless : Bool)
  | closing
  | bar
  | repeated (least : Nat) (most? : Option Nat) (greedy : Bool)
  deriving Repr

namespace PatternToken

/-- A token and the number of characters it takes. -/
abbrev Found := Option (PatternToken × Nat)

/-- A count in a repetition: digits with blanks around them, below `2 ^ 32`. -/
def count? (cs : List Char) : Option Nat :=
  let digits := trim cs
  if !digits.isEmpty && digits.all Char.isDigit then
    let n := digits.foldl (fun n c => n * 10 + (c.toNat - '0'.toNat)) 0
    if n < 4294967296 then some n else none
  else none

/-- A repetition of which `width` characters are read; it is lazy when a question mark follows. -/
def repetition (least : Nat) (most? : Option Nat) (width : Nat) (rest : List Char) : Found :=
  if rest.head? = some '?' then some (.repeated least most? false, width + 1)
  else some (.repeated least most? true, width)

/-- A repetition in braces, of which the first is read. -/
def inBraces (cs : List Char) : Found :=
  let body := cs.takeWhile (· ≠ '\x7d')
  match cs.drop body.length with
  | [] => none
  | _ :: rest =>
    let width := body.length + 2
    let low := body.takeWhile (· ≠ ',')
    match count? low, body.drop low.length with
    | some least, [] => repetition least (some least) width rest
    | some least, [_] => repetition least none width rest
    | some least, _ :: high =>
      match count? high with
      | some most => if least ≤ most then repetition least (some most) width rest else none
      | none => none
    | none, _ => none

def isNameStart (c : Char) : Bool := c = '_' || isLetter c

def isNameChar (c : Char) : Bool :=
  c = '_' || c = '.' || c = '[' || c = ']' || isLetter c || isNumber c

/-- A group with a name, which ends at `>`. -/
def namedGroup (taken : Nat) (cs : List Char) : Found :=
  let name := cs.takeWhile (· ≠ '>')
  match name, cs.drop name.length with
  | c :: rest, _ :: _ =>
    if isNameStart c && rest.all isNameChar then
      some (.opening true (some (c :: rest)) none, taken + name.length + 1)
    else none
  | _, _ => none

/-- A group, of which the parenthesis is read. -/
def group (cs : List Char) : Found :=
  match cs with
  | '?' :: 'P' :: '<' :: rest => namedGroup 4 rest
  | '?' :: '<' :: rest => namedGroup 3 rest
  | '?' :: ':' :: _ => some (.opening false none none, 3)
  | '?' :: 'i' :: ':' :: _ => some (.opening false none (some true), 4)
  | '?' :: '-' :: 'i' :: ':' :: _ => some (.opening false none (some false), 5)
  | '?' :: 'i' :: ')' :: _ => some (.setCaseless true, 4)
  | '?' :: '-' :: 'i' :: ')' :: _ => some (.setCaseless false, 5)
  | '?' :: _ => none
  | _ => some (.opening true none none, 1)

/-- A character that stands for itself, or for all that are equal to it up to case. -/
def char (caseless : Bool) (c : Char) : PatternToken :=
  let s := CodeRanges.single c.toNat
  .item (.ofSet (if caseless then CaseFold.close s else s)) 0

/-- All characters but the end of a line. -/
def anyChar : CodeRanges := (CodeRanges.single '\n'.toNat).complement

/-- The token at the head of `c :: cs`. -/
def next (caseless : Bool) (c : Char) (cs : List Char) : Found :=
  if c = '\\' then
    match cs with
    | [] => none
    | e :: _ =>
      if e = 'A' then some (.item .atStart 0, 2)
      else if e = 'z' then some (.item .atEnd 0, 2)
      else
        match CharClass.escape? e with
        | some (.char c) => some (char caseless c, 2)
        | some (.set s) => some (.item (.ofSet s) 0, 2)
        | none => none
  else if c = '[' then
    (CharClass.ofText? caseless cs).map fun s => (.item (.ofSet s.1.set) s.1.depth, s.2 + 1)
  else if c = '(' then group cs
  else if c = ')' then some (.closing, 1)
  else if c = '|' then some (.bar, 1)
  else if c = '*' then repetition 0 none 1 cs
  else if c = '+' then repetition 1 none 1 cs
  else if c = '?' then repetition 0 (some 1) 1 cs
  else if c = '\x7b' then inBraces cs
  else if c = '.' then some (.item (.ofSet anyChar) 0, 1)
  else if c = '^' then some (.item .atStart 0, 1)
  else if c = '$' then some (.item .atEnd 0, 1)
  else some (char caseless c, 1)

end PatternToken

end UILayout
