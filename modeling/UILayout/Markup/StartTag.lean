import UILayout.Markup.Document
import UILayout.Markup.Reference

/-!
# UILayout.Markup.StartTag

Attributes of start tags. Two readings of one tag are laid side by side: `nextPair` cuts the content
of the tag into keys and quoted values and finds what is wrong with them, and `Locator` walks the
raw tag to tell where each name and each value stands in the document.

* `length_nextPair_rest`: every pair takes some of the content, so reading the attributes ends.
-/

namespace UILayout
namespace Markup

open Text

def isTagBlank (c : Char) : Bool := c = ' ' || c = '\t' || c = '\n' || c = '\r'

/-- A key and its raw value, and the byte position of the key in the content of the tag. -/
structure RawPair where
  key : List Char
  position : Nat
  value : List Char
  deriving DecidableEq, Repr

namespace StartTag

/-- What a content that is left over from a position on holds: no more pairs, or one and the rest. -/
inductive Next where
  | done
  | pair (p : RawPair) (position : Nat) (rest : List Char)

/-- The quoted value behind an `=`, for a content of `length` bytes. -/
def quotedValue (length : Nat) (key : List Char) (keyPosition position : Nat) (cs : List Char) :
    Except Fault Next :=
  let blanks := cs.takeWhile isTagBlank
  let position := position + blanks.length
  match cs.dropWhile isTagBlank with
  | [] => .error (.missingValue length)
  | q :: inner =>
    if q = '"' ∨ q = '\'' then
      let value := inner.takeWhile (· ≠ q)
      match inner.dropWhile (· ≠ q) with
      | [] => .error (.missingQuote length q)
      | _ :: rest =>
        .ok (.pair ⟨key, keyPosition, value⟩ (position + byteLength value + 2) rest)
    else .error (.unquotedValue position)

/-- The next pair of a content of `length` bytes, of which `cs` is left from `position` on. A key is
its first character, whatever that is, and all up to a blank or an `=`. `seen` holds the keys before
it with their positions. -/
def nextPair (length : Nat) (seen : List (List Char × Nat)) (position : Nat) (cs : List Char) :
    Except Fault Next :=
  let position := position + (cs.takeWhile isTagBlank).length
  match cs.dropWhile isTagBlank with
  | [] => .ok .done
  | k :: ks =>
    let key := k :: ks.takeWhile fun c => c ≠ '=' && !isTagBlank c
    let behind := ks.dropWhile fun c => c ≠ '=' && !isTagBlank c
    let blanks := behind.takeWhile isTagBlank
    let equalsAt := position + byteLength key + blanks.length
    match behind.dropWhile isTagBlank with
    | [] => .error (.keyWithoutEquals length)
    | e :: rest =>
      if e = '=' then
        match seen.find? (·.1 = key) with
        | some previous => .error (.duplicateKey position previous.2)
        | none => quotedValue length key position (equalsAt + 1) rest
      else .error (.keyWithoutEquals equalsAt)

theorem length_dropWhile_le {α : Type} (p : α → Bool) (l : List α) :
    (l.dropWhile p).length ≤ l.length := by
  induction l with
  | nil => simp
  | cons a l ih =>
    simp only [List.dropWhile_cons]
    split
    · simp only [List.length_cons]
      omega
    · simp

theorem length_quotedValue_rest {length k position : Nat} {key cs rest : List Char} {p : RawPair}
    {next : Nat} (h : quotedValue length key k position cs = .ok (.pair p next rest)) :
    rest.length < cs.length := by
  have hd := length_dropWhile_le isTagBlank cs
  unfold quotedValue at h
  split at h
  · cases h
  · rename_i q inner hq
    rw [hq] at hd
    simp only [List.length_cons] at hd
    split at h
    · have hi := length_dropWhile_le (· ≠ q) inner
      split at h
      · cases h
      · rename_i c rest' hr
        rw [hr] at hi
        simp only [List.length_cons] at hi
        cases h
        omega
    · cases h

theorem length_nextPair_rest {length position : Nat} {seen : List (List Char × Nat)}
    {cs rest : List Char} {p : RawPair} {next : Nat}
    (h : nextPair length seen position cs = .ok (.pair p next rest)) : rest.length < cs.length := by
  have hd := length_dropWhile_le isTagBlank cs
  unfold nextPair at h
  split at h
  · cases h
  · rename_i k ks hk
    rw [hk] at hd
    simp only [List.length_cons] at hd
    have h1 := length_dropWhile_le (fun c => c ≠ '=' && !isTagBlank c) ks
    have h2 := length_dropWhile_le isTagBlank (ks.dropWhile fun c => c ≠ '=' && !isTagBlank c)
    simp only at h
    split at h
    · cases h
    · rename_i e rest' he
      rw [he] at h2
      simp only [List.length_cons] at h2
      split at h
      · split at h
        · cases h
        · have := length_quotedValue_rest h
          omega
      · cases h

end StartTag

/-- Walks a raw start tag. `position` counts the bytes passed; when a cut fell inside a character,
its last `torn` bytes come first, as part of a name. -/
structure Locator where
  position : Nat
  torn : Nat
  rest : List Char
  deriving Repr

namespace Locator

/-- Blanks that separate the parts of a tag: form feeds count too. -/
def isBlank (c : Char) : Bool := isTagBlank c || c = Char.ofNat 12

/-- Drops `n` bytes; the second part counts the bytes of a character that was cut. -/
def drop : Nat → List Char → Nat × List Char
  | 0, cs => (0, cs)
  | _ + 1, [] => (0, [])
  | n + 1, c :: cs => if c.utf8Size ≤ n + 1 then drop (n + 1 - c.utf8Size) cs else (c.utf8Size - (n + 1), cs)

/-- Starts behind the first `skip` bytes of a raw tag. -/
def start (raw : List Char) (skip : Nat) : Locator :=
  let d := drop skip raw
  ⟨min skip (byteLength raw), d.1, d.2⟩

def isNameChar (c : Char) : Bool := c ≠ '=' && !isBlank c && c ≠ '/' && c ≠ '>'

def skipBlanks (l : Locator) : Locator :=
  if l.torn = 0 then
    ⟨l.position + (l.rest.takeWhile isBlank).length, 0, l.rest.dropWhile isBlank⟩
  else l

/-- Where an attribute stands in the raw tag. -/
structure Place where
  start : Nat
  valueStart : Nat
  stop : Nat
  deriving DecidableEq, Repr

/-- The place behind an `=`, for an attribute that starts at `start`. -/
def value (l : Locator) (start : Nat) : Option Place × Locator :=
  let l := l.skipBlanks
  match l.rest with
  | [] => (none, l)
  | q :: inner =>
    if q = '"' ∨ q = '\'' then
      let content := inner.takeWhile (· ≠ q)
      let behind := inner.dropWhile (· ≠ q)
      let stop := l.position + 1 + byteLength content + (if behind.isEmpty then 0 else 1)
      (some ⟨start, l.position, stop⟩, ⟨stop, 0, behind.drop 1⟩)
    else (none, l)

/-- The place of the next attribute. Where none is found, the walk goes on from where it stopped. -/
def next (l : Locator) : Option Place × Locator :=
  let l := l.skipBlanks
  let name := l.rest.takeWhile isNameChar
  let afterName : Locator :=
    ⟨l.position + l.torn + byteLength name, 0, l.rest.dropWhile isNameChar⟩
  if l.torn = 0 ∧ name.isEmpty then (none, l)
  else
    let behind := afterName.skipBlanks
    match behind.rest with
    | [] => (none, behind)
    | e :: rest => if e = '=' then value ⟨behind.position + 1, 0, rest⟩ l.position else (none, behind)

end Locator

namespace StartTag

/-- The attributes of the tag `raw`, which stands at `tagStart` of a text. An attribute that the
locator does not find counts as standing at `tagStart`, with an empty value. `seen` holds the keys
read so far. -/
def attributesFrom (raw : List Char) (tagStart length : Nat) (seen : List (List Char × Nat))
    (locator : Locator) (position : Nat) (cs : List Char) : Except Fault (List Attribute) :=
  match _h : nextPair length seen position cs with
  | .error fault => .error fault
  | .ok .done => .ok []
  | .ok (.pair p next rest) =>
    match Reference.unescape p.value with
    | .error fault => .error fault
    | .ok value =>
      let found := locator.next
      let place := found.1.getD ⟨0, 0, 0⟩
      let written := (slice? raw (place.valueStart + 1) (place.stop - 1)).getD []
      let a : Attribute :=
        ⟨String.ofList p.key, String.ofList value, tagStart + place.start, tagStart + place.stop,
          tagStart + place.valueStart, Reference.edges written⟩
      (attributesFrom raw tagStart length ((p.key, p.position) :: seen) found.2 next rest).map
        (a :: ·)
  termination_by cs.length
  decreasing_by exact length_nextPair_rest _h

/-- The element that a start tag opens. `content` is what stands between the `<` at `start` and the
`>` that ends at `stop`, without the slash of an empty element. -/
def element (text content : List Char) (start stop : Nat) : Except Fault Element :=
  let tag := content.takeWhile fun c => !isTagBlank c
  let raw := (slice? text start stop).getD []
  let length := byteLength content
  (attributesFrom raw start length [] (.start raw (1 + byteLength tag)) (byteLength tag)
      (content.dropWhile fun c => !isTagBlank c)).map fun attributes =>
    attributes.foldl Element.setAttribute
      { Element.opened (String.ofList tag) start with tagStop := stop }

end StartTag

end Markup
end UILayout
