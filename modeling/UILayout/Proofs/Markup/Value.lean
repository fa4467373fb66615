import UILayout.Markup.Value

/-!
# UILayout.Proofs.Markup.Value

What the characters of a value say about its form. Only brackets and dots count on the way through a
value, and no identifier has any of them.

* `hasOpenDot_append`: behind a text without a dot, what counts is how deep in brackets it ends.
* `ofText_eq_constant_iff`, `ofText_eq_racialConstant_iff`: which values have the form of a constant.
-/

namespace UILayout
namespace Markup
namespace ValueForm

open Text

variable {cs front : List Char}

/-- How deep in brackets a character leaves a value. One bracket too many closes none. -/
def nest (depth : Nat) (c : Char) : Nat :=
  if c = '[' then depth + 1 else if c = ']' then depth - 1 else depth

theorem hasOpenDot_append (h : '.' ∉ front) (depth : Nat) (back : List Char) :
    hasOpenDot depth (front ++ back) = hasOpenDot (front.foldl nest depth) back := by
  induction front generalizing depth with
  | nil => rfl
  | cons c front ih =>
    have hc : c ≠ '.' := fun hc => h (hc ▸ List.mem_cons_self)
    have hrest := ih fun hmem => h (List.mem_cons_of_mem _ hmem)
    rw [List.cons_append, hasOpenDot, List.foldl_cons, nest]
    split
    · exact hrest _
    · split
      · exact hrest _
      · rw [if_neg fun hdot => hc hdot.1]
        exact hrest _

theorem hasOpenDot_eq_false (h : '.' ∉ cs) (depth : Nat) : hasOpenDot depth cs = false := by
  have happend := hasOpenDot_append h depth []
  rwa [List.append_nil] at happend

theorem not_dot_mem_of_isIdentifier {name : List Char} (h : isIdentifier name) : '.' ∉ name := by
  intro hmem
  have hall := (Bool.and_eq_true_iff.1 h).2
  have hdot := List.all_eq_true.1 hall '.' hmem
  revert hdot
  decide +kernel

theorem ofText_eq_constant_iff {value : List Char} :
    ofText value = .constant ↔
      ∃ name, value = '$' :: name ∧ isIdentifier name ∧ ¬ Selector.Step.isKeyword (String.ofList name) := by
  constructor
  · intro h
    unfold ofText at h
    split at h
    · split at h <;> cases h
    · rename_i name
      split at h
      · cases h
      · split at h
        · rename_i hname
          exact ⟨name, rfl, by simpa using hname⟩
        · cases h
    · cases h
  · rintro ⟨name, rfl, hname, hword⟩
    have hdot : hasOpenDot 0 ('$' :: name) = false := by
      refine hasOpenDot_eq_false ?_ 0
      rintro (_ | ⟨_, hmem⟩)
      exact not_dot_mem_of_isIdentifier hname hmem
    simp [ofText, hdot, hname, hword]

theorem ofText_eq_racialConstant_iff {value : List Char} :
    ofText value = .racialConstant ↔ ∃ name, value = '#' :: name ∧ isIdentifier name := by
  constructor
  · intro h
    unfold ofText at h
    split at h
    · rename_i name
      split at h
      · exact ⟨name, rfl, ‹_›⟩
      · cases h
    · split at h
      · cases h
      · split at h <;> cases h
    · cases h
  · rintro ⟨name, rfl, hname⟩
    simp [ofText, hname]

/-- Behind a dollar sign, a dot outside brackets decides. -/
theorem ofText_eq_bind_iff {name : List Char} :
    ofText ('$' :: name) = .bind ↔ hasOpenDot 0 ('$' :: name) = true := by
  rw [ofText]
  split
  · exact iff_of_true rfl ‹_›
  · refine iff_of_false ?_ ‹_›
    split <;> simp

end ValueForm
end Markup
end UILayout
