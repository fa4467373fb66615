/-!
# UILayout.Text.CodeRanges

Sets of characters as lists of code point ranges, both ends included. The ranges of a set stand in
order and do not touch each other; each operation keeps that.
-/

namespace UILayout
namespace Text

abbrev CodeRanges := List (Nat × Nat)

namespace CodeRanges

def mem (s : CodeRanges) (code : Nat) : Bool := s.any fun r => r.1 ≤ code && code ≤ r.2

def maxCode : Nat := 0x10ffff

/-- The code point behind `n`; surrogates are passed over. -/
def succ (n : Nat) : Nat := if n = 0xd7ff then 0xe000 else n + 1

/-- The code point before `n`; surrogates are passed over. -/
def pred (n : Nat) : Nat := if n = 0xe000 then 0xd7ff else n - 1

/-- Puts a range in its place, together with all that it overlaps or touches. -/
def insert (first last : Nat) : CodeRanges → CodeRanges
  | [] => [(first, last)]
  | (a, b) :: rest =>
    if last + 1 < a then (first, last) :: (a, b) :: rest
    else if b + 1 < first then (a, b) :: insert first last rest
    else insert (min first a) (max last b) rest

def single (code : Nat) : CodeRanges := [(code, code)]

def union (s t : CodeRanges) : CodeRanges := t.foldl (fun s r => insert r.1 r.2 s) s

def ofCodes (codes : List Nat) : CodeRanges := codes.foldl (fun s n => insert n n s) []

def inter (s t : CodeRanges) : CodeRanges :=
  s.flatMap fun r => t.filterMap fun q =>
    if max r.1 q.1 ≤ min r.2 q.2 then some (max r.1 q.1, min r.2 q.2) else none

/-- What a range holds outside of `q`. -/
def cut (q r : Nat × Nat) : CodeRanges :=
  if q.2 < r.1 ∨ r.2 < q.1 then [r]
  else
    (if r.1 < q.1 then [(r.1, pred q.1)] else []) ++ (if q.2 < r.2 then [(succ q.2, r.2)] else [])

/-- What `s` holds outside of `t`. -/
def diff (s t : CodeRanges) : CodeRanges := t.foldl (fun s q => s.flatMap (cut q)) s

/-- What only one of two sets holds. -/
def symmDiff (s t : CodeRanges) : CodeRanges := diff (union s t) (inter s t)

/-- A range given by its ends in any order. -/
def between (a b : Nat) : Nat × Nat := (min a b, max a b)

/-- The gaps behind a range that ends at `last`. Between the neighbours of the surrogates there is no
character, and the gap there is given by its ends the other way round. -/
def gaps (last : Nat) : CodeRanges → CodeRanges
  | [] => if last < maxCode then [(succ last, maxCode)] else []
  | (a, b) :: rest => between (succ last) (pred a) :: gaps b rest

/-- All other characters. -/
def complement : CodeRanges → CodeRanges
  | [] => [(0, maxCode)]
  | (a, b) :: rest => if 0 < a then (0, pred a) :: gaps b rest else gaps b rest

end CodeRanges

end Text
end UILayout
