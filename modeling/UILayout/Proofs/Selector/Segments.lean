import UILayout.Proofs.Selector.Exact

/-!
# UILayout.Proofs.Selector.Segments

The segments of a path, which stand between its slashes. A path is read segment by segment: its first
segment, and then what stands behind the first slash, which is a path again.

* `pieces_eq_splitOnP`: the tokens of the segments.
* `pathSegments_append`: the first segment, and the others.
* `path_induct`: induction over the segments of a path.
* `forall₂_pathSegments`: every segment is read by itself.
-/

namespace UILayout
namespace Selector

open Text

/-- No token of a segment is a slash. -/
def NoSlash (tokens : List Token) : Prop := ∀ t ∈ tokens, t.kind ≠ .slash

theorem noSlash_or_split (tokens : List Token) :
    NoSlash tokens ∨ ∃ front slash rest,
      tokens = front ++ slash :: rest ∧ NoSlash front ∧ slash.kind = .slash := by
  induction tokens with
  | nil => exact .inl nofun
  | cons t tokens ih =>
    by_cases ht : t.kind = .slash
    · exact .inr ⟨[], t, tokens, rfl, nofun, ht⟩
    · rcases ih with hnone | ⟨front, slash, rest, rfl, hfront, hslash⟩
      · exact .inl (List.forall_mem_cons.2 ⟨ht, hnone⟩)
      · exact .inr ⟨t :: front, slash, rest, rfl, List.forall_mem_cons.2 ⟨ht, hfront⟩, hslash⟩

namespace Grammar

variable {m : Missing} {front rest tokens : List Token} {t slash : Token}

theorem pieces_eq_splitOnP (tokens : List Token) :
    pieces tokens = tokens.splitOnP fun t => t.kind = .slash := by
  induction tokens with
  | nil => rfl
  | cons t tokens ih =>
    rw [List.splitOnP_cons_eq_if_modifyHead, ← ih]
    by_cases ht : t.kind = .slash
    · simp [pieces, segments, ht]
    · simp [pieces, segments, ht]

theorem pieces_of_noSlash (h : NoSlash tokens) : pieces tokens = [tokens] := by
  rw [pieces, segments_of_not_slash h]
  rfl

theorem pieces_append (hslash : slash.kind = .slash) (h : NoSlash front) :
    pieces (front ++ slash :: rest) = front :: pieces rest := by
  rw [pieces, segments_append hslash h]
  rfl

theorem segments_nil_iff : segments tokens = ([], []) ↔ tokens = [] := by
  cases tokens with
  | nil => simp [segments]
  | cons t rest =>
    rw [segments]
    split <;> simp

theorem pathSegments_of_noSlash (h : NoSlash (t :: rest)) :
    pathSegments m (t :: rest) = [segment m t rest] := by
  rw [pathSegments, segments_of_not_slash h]

/-- What stands behind a slash is read as a path, unless it is missing. -/
theorem laterSegments_eq (m : Missing) (slash : Token) (h : tokens ≠ []) :
    laterSegments m ((slash, (segments tokens).1) :: (segments tokens).2) = pathSegments m tokens := by
  unfold pathSegments
  dsimp only
  cases hlater : (segments tokens).2 with
  | nil =>
    cases hfirst : (segments tokens).1 with
    | nil => exact absurd (segments_nil_iff.1 (Prod.ext hfirst hlater)) h
    | cons t rest => rfl
  | cons next later =>
    obtain ⟨next, more⟩ := next
    rw [laterSegments]

theorem pathSegments_append (hslash : slash.kind = .slash) (h : NoSlash front) :
    pathSegments m (front ++ slash :: rest) =
      segmentBefore { m with next? := some slash } front slash ::
        if rest = [] then [⟨none, [⟨.missingSelectorAfterSlash, .point slash.span.stop⟩]⟩]
        else pathSegments m rest := by
  rw [pathSegments, segments_append hslash h]
  dsimp only
  congr 1
  split
  · rename_i hrest
    subst hrest
    rfl
  · rename_i hrest
    exact laterSegments_eq m slash hrest

/-- A path that is not empty is one segment, or a segment in front of a slash, behind which there is
nothing or a path. -/
theorem path_induct {P : List Token → Prop} (nil : P [])
    (single : ∀ {t rest}, NoSlash (t :: rest) → P (t :: rest))
    (last : ∀ {front slash}, NoSlash front → slash.kind = .slash → P (front ++ [slash]))
    (more : ∀ {front slash rest}, NoSlash front → slash.kind = .slash → rest ≠ [] → P rest →
      P (front ++ slash :: rest))
    (tokens : List Token) : P tokens := by
  rcases noSlash_or_split tokens with hnone | ⟨front, slash, rest, hsplit, hfront, hslash⟩
  · cases tokens with
    | nil => exact nil
    | cons t rest => exact single hnone
  · rw [hsplit]
    by_cases hrest : rest = []
    · rw [hrest]
      exact last hfront hslash
    · exact more hfront hslash hrest (path_induct nil single last more rest)
  termination_by tokens.length
  decreasing_by
    rw [hsplit, List.length_append, List.length_cons]
    omega

/-- What the tokens of a segment give: the step that they begin with, or, without tokens, a fault. -/
inductive ReadAs (piece : List Token) (s : Segment) : Prop where
  | step {m : Missing} {t : Token} {rest : List Token} :
      piece = t :: rest → s = segment m t rest → ReadAs piece s
  | empty {problem : Problem} : piece = [] → s = ⟨none, [problem]⟩ → ReadAs piece s

theorem readAs_segmentBefore (m : Missing) (piece : List Token) (slash : Token) :
    ReadAs piece (segmentBefore m piece slash) := by
  cases piece with
  | nil => exact .empty rfl rfl
  | cons t rest => exact .step rfl rfl

/-- Every segment of a path is read by itself. -/
theorem forall₂_pathSegments (m : Missing) (h : tokens ≠ []) :
    List.Forall₂ ReadAs (pieces tokens) (pathSegments m tokens) := by
  induction tokens using path_induct with
  | nil => exact absurd rfl h
  | single hnone =>
    rw [pieces_of_noSlash hnone, pathSegments_of_noSlash hnone]
    exact .cons (.step rfl rfl) .nil
  | last hfront hslash =>
    rw [pieces_append hslash hfront, pathSegments_append hslash hfront, if_pos rfl]
    exact .cons (readAs_segmentBefore _ _ _) (.cons (.empty rfl rfl) .nil)
  | more hfront hslash hrest ih =>
    rw [pieces_append hslash hfront, pathSegments_append hslash hfront, if_neg hrest]
    exact .cons (readAs_segmentBefore _ _ _) (ih hrest)

end Grammar
end Selector
end UILayout
