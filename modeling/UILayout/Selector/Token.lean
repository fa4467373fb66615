import UILayout.Text.Bytes
import UILayout.Text.Span

/-!
# UILayout.Selector.Token

Tokens of selector expressions. `scan` cuts a text into tokens without leaving anything out: each
token is the longest prefix of what remains that some rule accepts, a keyword wins over a handle of
the same length, and a character that starts no token is an `unknown` token of its own.

* `munch_append`: a token and what remains after it make up the text.
* `munch_ne_nil`: no token is empty, so scanning ends.
-/

namespace UILayout
namespace Selector

open Text

inductive TokenKind where
  | blank
  | this
  | parent
  | root
  | layer
  | sibling
  | ancestor
  | handle
  | ident
  | slash
  | openBracket
  | closeBracket
  | equals
  | comma
  | dot
  | atSign
  | minus
  | unknown
  deriving DecidableEq, Repr

structure Token where
  kind : TokenKind
  text : String
  span : Span
  deriving DecidableEq, Repr

namespace Token

def isBlank (c : Char) : Bool := c = ' ' || c = '\t' || c = '\r' || c = '\n'

/-- Characters of identifiers and handle names: ASCII letters, digits and the underscore. -/
def isWord (c : Char) : Bool := c.isAlphanum || c = '_'

def kindOfWord (word : List Char) : TokenKind :=
  if word = ['t', 'h', 'i', 's'] then .this
  else if word = ['p', 'a', 'r', 'e', 'n', 't'] then .parent
  else if word = ['r', 'o', 'o', 't'] then .root
  else if word = ['l', 'a', 'y', 'e', 'r'] then .layer
  else if word = ['s', 'i', 'b', 'l', 'i', 'n', 'g'] then .sibling
  else if word = ['a', 'n', 'c', 'e', 's', 't', 'o', 'r'] then .ancestor
  else .handle

/-- The kind of a character that is a token by itself. -/
def kindOfMark (c : Char) : TokenKind :=
  if c = '/' then .slash
  else if c = '[' then .openBracket
  else if c = ']' then .closeBracket
  else if c = '=' then .equals
  else if c = ',' then .comma
  else if c = '.' then .dot
  else if c = '@' then .atSign
  else if c = '-' then .minus
  else .unknown

/-- The token at the head of `c :: cs`: its kind, its characters, and what remains. -/
def munch (c : Char) (cs : List Char) : TokenKind × List Char × List Char :=
  if isBlank c then (.blank, c :: cs.takeWhile isBlank, cs.dropWhile isBlank)
  else if isWord c then (.ident, c :: cs.takeWhile isWord, cs.dropWhile isWord)
  else if c = '$' then
    match cs.takeWhile isWord with
    | [] => (.unknown, [c], cs)
    | w :: ws => (kindOfWord (w :: ws), c :: w :: ws, cs.dropWhile isWord)
  else (kindOfMark c, [c], cs)

theorem munch_append (c : Char) (cs : List Char) :
    (munch c cs).2.1 ++ (munch c cs).2.2 = c :: cs := by
  unfold munch
  split
  · simp
  · split
    · simp
    · split
      · split
        · simp
        · rename_i w ws h
          have := List.takeWhile_append_dropWhile (p := isWord) (l := cs)
          rw [h] at this
          simpa using this
      · simp

theorem munch_ne_nil (c : Char) (cs : List Char) : (munch c cs).2.1 ≠ [] := by
  unfold munch
  repeat' split
  all_goals simp

theorem length_munch_rest (c : Char) (cs : List Char) : (munch c cs).2.2.length ≤ cs.length := by
  have hlen := congrArg List.length (munch_append c cs)
  have hpos := List.length_pos_iff.2 (munch_ne_nil c cs)
  simp only [List.length_append, List.length_cons] at hlen
  omega

/-- All tokens of a text that begins at offset `pos`, blanks included. -/
def scanFrom (pos : Nat) : List Char → List Token
  | [] => []
  | c :: cs =>
    let m := munch c cs
    let stop := pos + byteLength m.2.1
    ⟨m.1, String.ofList m.2.1, ⟨pos, stop⟩⟩ :: scanFrom stop m.2.2
  termination_by cs => cs.length
  decreasing_by
    have := length_munch_rest c cs
    simp only [List.length_cons]
    omega

/-- All tokens of a text, blanks included. -/
def scan (text : List Char) : List Token := scanFrom 0 text

/-- The tokens that the grammar sees: blanks only separate. -/
def tokens (text : List Char) : List Token := (scan text).filter (·.kind ≠ .blank)

end Token

end Selector
end UILayout
