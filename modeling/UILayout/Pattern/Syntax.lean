import UILayout.Text.CodeRanges

/-!
# UILayout.Pattern.Syntax

Regular expressions over characters of every script, and when a text matches one. A pattern is read
as a relation between positions of a text: `reach` gives the positions at which a match can end when
it starts at one of a set of positions. Which of several matches is found makes no difference to
whether there is one, so greed plays no part in it.

Patterns are put together by `ofSet`, `concat`, `alternate` and `repetition`, which keep them in a normal
form: neighbouring texts are one text, alternatives that are sets of characters are one set, and what
all alternatives begin with stands before them.
-/

namespace UILayout

open Text

inductive Pattern where
  | empty
  /-- The characters of a text, one after the other. -/
  | literal (text : List Char)
  | set (s : CodeRanges)
  | atStart
  | atEnd
  | group (index : Nat) (p : Pattern)
  | seq (a b : Pattern)
  | alt (a b : Pattern)
  /-- At least `least` times, and at most `most?` times if there is a bound. -/
  | repeated (p : Pattern) (least : Nat) (most? : Option Nat) (greedy : Bool)
  deriving DecidableEq, Repr, Inhabited

namespace Pattern

/-- A set of characters; one that has a single member is a text. -/
def ofSet : CodeRanges → Pattern
  | [(a, b)] => if a = b then .literal [Char.ofNat a] else .set [(a, b)]
  | s => .set s

def parts : Pattern → List Pattern
  | .empty => []
  | .seq a b => parts a ++ parts b
  | p => [p]

def branches : Pattern → List Pattern
  | .alt a b => branches a ++ branches b
  | p => [p]

/-- Puts a part before others, in one piece with the next if both are texts. -/
def glue : Pattern → List Pattern → List Pattern
  | .literal s, .literal t :: rest => .literal (s ++ t) :: rest
  | p, rest => p :: rest

def ofParts : List Pattern → Pattern
  | [] => .empty
  | [p] => p
  | p :: rest => .seq p (ofParts rest)

def concat (ps : List Pattern) : Pattern := ofParts ((ps.flatMap parts).foldr glue [])

def ofBranches : List Pattern → Pattern
  | [] => .set []
  | [p] => p
  | p :: rest => .alt p (ofBranches rest)

/-- The code point of a text of one character. -/
def code? : Pattern → Option Nat
  | .literal [c] => some c.toNat
  | _ => none

def set? : Pattern → Option CodeRanges
  | .set s => some s
  | _ => none

/-- What two lists begin with. -/
def sharedHead : List Pattern → List Pattern → List Pattern
  | p :: ps, q :: qs => if p = q then p :: sharedHead ps qs else []
  | _, _ => []

/-- The parts that all alternatives begin with, if all are sequences. -/
def sharedParts : List Pattern → List Pattern
  | [] => []
  | [p] =>
    match p with
    | .seq .. => p.parts
    | _ => []
  | p :: rest =>
    match p with
    | .seq .. => sharedHead p.parts (sharedParts rest)
    | _ => []

/-- How many patterns there are in a pattern. -/
def size : Pattern → Nat
  | .group _ p | .repeated p .. => size p + 1
  | .seq a b | .alt a b => size a + size b + 1
  | _ => 1

/-- Alternatives as one set, or behind what they share, or side by side. `depth` bounds how often
something shared is taken out. -/
def alternateWithin (depth : Nat) (ps : List Pattern) : Pattern :=
  let all := ps.flatMap branches
  match all with
  | [] => .set []
  | [p] => p
  | _ =>
    match all.mapM code?, all.mapM set? with
    | some codes, _ => ofSet (CodeRanges.ofCodes codes)
    | none, some sets => ofSet (sets.foldl CodeRanges.union [])
    | none, none =>
      let shared := sharedParts all
      match depth with
      | 0 => ofBranches all
      | n + 1 =>
        if shared.isEmpty then ofBranches all
        else
          concat (shared ++
            [alternateWithin n (all.map fun p => concat (p.parts.drop shared.length))])

/-- One of several patterns. Each time something shared is taken out they get smaller. -/
def alternate (ps : List Pattern) : Pattern :=
  alternateWithin (ps.foldl (fun total p => total + size p) 0) ps

/-- Does the pattern match nothing but empty stretches? -/
def isWidthless : Pattern → Bool
  | .empty | .atStart | .atEnd => true
  | .literal text => text.isEmpty
  | .set _ => false
  | .group _ p => isWidthless p
  | .seq a b | .alt a b => isWidthless a && isWidthless b
  | .repeated p _ most? _ => most?.any fun most => most = 0 || isWidthless p

/-- The least number of characters of a match; `none` when there may be no match at all. -/
def minLength? : Pattern → Option Nat
  | .empty | .atStart | .atEnd => some 0
  | .literal text => some text.length
  | .set s => if s.isEmpty then none else some 1
  | .group _ p => minLength? p
  | .seq a b =>
    match minLength? a, minLength? b with
    | some m, some n => some (m + n)
    | _, _ => none
  | .alt a b =>
    match minLength? a, minLength? b with
    | some m, some n => some (min m n)
    | _, _ => none
  | .repeated p least _ _ => (minLength? p).map (· * least)

/-- A pattern several times. What has no width need not be matched twice at a place. -/
def repetition (p : Pattern) (least : Nat) (most? : Option Nat) (greedy : Bool) : Pattern :=
  let least := if p.isWidthless then min least 1 else least
  let most? := if p.isWidthless then some (min (most?.getD 1) 1) else most?
  match least, most? with
  | 0, some 0 => .empty
  | 1, some 1 => p
  | _, _ => .repeated p least most? greedy

/-- Does each match start at the start of the text? -/
def startsAtStart : Pattern → Bool
  | .atStart => true
  | .group _ p => startsAtStart p
  | .seq a b => startsAtStart a || (isWidthless a && startsAtStart b)
  | .alt a b => startsAtStart a && startsAtStart b
  | .repeated p least _ _ => 0 < least && startsAtStart p
  | _ => false

/-- Does each match stop at the end of the text? -/
def stopsAtEnd : Pattern → Bool
  | .atEnd => true
  | .group _ p => stopsAtEnd p
  | .seq a b => stopsAtEnd b || (isWidthless b && stopsAtEnd a)
  | .alt a b => stopsAtEnd a && stopsAtEnd b
  | .repeated p least _ _ => 0 < least && stopsAtEnd p
  | _ => false

/-- Positions of `a` and `b`, both in increasing order. -/
def merge : List Nat → List Nat → List Nat
  | [], b => b
  | a :: as, [] => a :: as
  | a :: as, b :: bs =>
    if a < b then a :: merge as (b :: bs)
    else if b < a then b :: merge (a :: as) bs
    else a :: merge as bs
  termination_by a b => a.length + b.length

/-- Takes a step `n` times, or until it changes nothing any more. -/
def times (step : List Nat → List Nat) : Nat → List Nat → List Nat
  | 0, from_ => from_
  | n + 1, from_ =>
    let next := step from_
    if next = from_ then from_ else times step n next

/-- All that is reached in at most `n` steps. A step from what was reached before adds nothing. -/
def within (step : List Nat → List Nat) : Nat → List Nat → List Nat
  | 0, from_ => from_
  | n + 1, from_ =>
    let further := merge from_ (step from_)
    if further.length = from_.length then from_ else within step n further

/-- The position behind `cs`, if it stands at `i`. -/
def behind? (text : Array Char) : List Char → Nat → Option Nat
  | [], i => some i
  | c :: cs, i => if text[i]? = some c then behind? text cs (i + 1) else none

/-- Where matches end that start at one of the positions `from_`. -/
def reach (text : Array Char) : Pattern → List Nat → List Nat
  | .empty, from_ => from_
  | .literal cs, from_ => from_.filterMap (behind? text cs)
  | .set s, from_ => from_.filterMap fun i =>
    match text[i]? with
    | some c => if s.mem c.toNat then some (i + 1) else none
    | none => none
  | .atStart, from_ => from_.filter (· = 0)
  | .atEnd, from_ => from_.filter (· = text.size)
  | .group _ p, from_ => reach text p from_
  | .seq a b, from_ => reach text b (reach text a from_)
  | .alt a b, from_ => merge (reach text a from_) (reach text b from_)
  | .repeated p least most? _, from_ =>
    let started := times (reach text p) least from_
    match most? with
    | some most => within (reach text p) (most - least) started
    | none => within (reach text p) (text.size + 1) started

/-- Does the pattern match somewhere in the text? -/
def matchesIn (p : Pattern) (text : List Char) : Bool :=
  !(reach text.toArray p (List.range (text.length + 1))).isEmpty

end Pattern

end UILayout
