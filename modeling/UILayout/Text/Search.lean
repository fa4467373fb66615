/-!
# UILayout.Text.Search

Looking for a text inside another one.

* `isWithin_iff`: it is found exactly when something before it and something behind it make up the
  whole.
-/

namespace UILayout
namespace Text

/-- Does `needle` stand somewhere in a text? -/
def isWithin (needle : List Char) : List Char → Bool
  | [] => needle.isEmpty
  | c :: cs => needle.isPrefixOf (c :: cs) || isWithin needle cs

theorem isWithin_iff (needle text : List Char) :
    isWithin needle text = true ↔ ∃ before after, text = before ++ needle ++ after := by
  induction text with
  | nil =>
    constructor
    · intro h
      have : needle = [] := by simpa [isWithin] using h
      exact ⟨[], [], by simp [this]⟩
    · rintro ⟨before, after, h⟩
      have : needle = [] := by
        have := congrArg List.length h
        simp only [List.length_append, List.length_nil] at this
        exact List.length_eq_zero_iff.1 (by omega)
      simp [isWithin, this]
  | cons c cs ih =>
    simp only [isWithin, Bool.or_eq_true, List.isPrefixOf_iff_prefix, ih]
    constructor
    · rintro (⟨after, h⟩ | ⟨before, after, h⟩)
      · exact ⟨[], after, by simp [h]⟩
      · exact ⟨c :: before, after, by simp [h]⟩
    · rintro ⟨before, after, h⟩
      cases before with
      | nil => exact Or.inl ⟨after, by simpa using h.symm⟩
      | cons b before =>
        simp only [List.cons_append, List.cons.injEq] at h
        exact Or.inr ⟨before, after, h.2⟩

end Text
end UILayout
