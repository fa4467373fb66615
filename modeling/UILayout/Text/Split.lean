/-!
# UILayout.Text.Split

Cutting a text at a separator.

* `length_splitOn`: there is one part more than there are separators.
-/

namespace UILayout
namespace Text

/-- The parts between separators, empty ones included. -/
def splitOn (separator : Char) : List Char → List (List Char)
  | [] => [[]]
  | c :: cs =>
    if c = separator then [] :: splitOn separator cs
    else
      match splitOn separator cs with
      | [] => [[c]]
      | part :: rest => (c :: part) :: rest

theorem length_splitOn (separator : Char) (cs : List Char) :
    (splitOn separator cs).length = cs.count separator + 1 := by
  induction cs with
  | nil => rfl
  | cons c cs ih =>
    by_cases h : c = separator
    · simp [splitOn, h, ih]
    · cases hs : splitOn separator cs with
      | nil => simp [hs] at ih
      | cons part rest =>
        rw [hs] at ih
        simp [splitOn, h, hs] at ih ⊢
        exact ih

/-- The names of a path with slashes between them. -/
def pathNames (path : String) : List String := (splitOn '/' path.toList).map String.ofList

end Text
end UILayout
