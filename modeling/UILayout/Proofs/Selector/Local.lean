import UILayout.Proofs.Selector.Cut
import UILayout.Proofs.Selector.Descent

/-!
# UILayout.Proofs.Selector.Local

A fault is local to its segment. Each segment of a path gives the step that it gives by itself, whatever
stands in the others; it has a fault just when it is not one fragment and nothing else; and the faults of
a segment lie behind the segments before it and in front of those behind it.

* `segment_congr`: what follows a segment decides where faults are found, and nothing else.
* `readAlone_of_readAs`: a segment by itself.
* `pairwise_apart`: where the faults of the segments are.
* `Path.ofText_local`: the segments of a path.
-/

namespace UILayout
namespace Selector

open Text Grammar

/-- A segment gives what its tokens give when there are no others, with a fault just when they are not a
fragment. -/
structure ReadAlone (piece : List Token) (s : Segment) : Prop where
  text : ∃ own, Token.tokens own = piece
  fragments : ∀ own, Token.tokens own = piece → (Path.ofText own).fragments = s.fragment?.toList
  problems : s.problems = [] ↔ ∃ f, IsFragment piece f

/-- The faults of a segment end in front of the tokens of a later one, whose faults begin behind its own. -/
def FaultsApart (a b : List Token × Segment) : Prop :=
  (∀ problem ∈ a.2.problems, ∀ t ∈ b.1, problem.span.stop ≤ t.span.start) ∧
    ∀ problem ∈ b.2.problems, ∀ t ∈ a.1, t.span.stop ≤ problem.span.start

/-- A path that is read piece by piece. -/
structure Path.ReadPiecewise (p : Path) (pieces : List (List Token)) (segs : List Segment) : Prop where
  alone : List.Forall₂ ReadAlone pieces segs
  fragments : p.fragments = segs.filterMap (·.fragment?)
  problems : p.problems = segs.flatMap (·.problems)
  apart : (pieces.zip segs).Pairwise FaultsApart

namespace Grammar

variable {m m' : Missing} {tokens rest piece : List Token} {t : Token} {text : List Char}

/-! ## What follows a segment -/

/-- What follows a parameter decides where it misses something, but not what it is. -/
theorem param_toOption_eq (m m' : Missing) (tokens : List Token) :
    (param m tokens).toOption = (param m' tokens).toOption := by
  cases tokens with
  | nil => rfl
  | cons t tokens =>
    unfold param
    dsimp only [Missing.span]
    repeat' split
    all_goals rfl

theorem param_ok_congr (m m' : Missing) {p : Param} (h : param m tokens = .ok (p, rest)) :
    param m' tokens = .ok (p, rest) := by
  have heq := param_toOption_eq m m' tokens
  rw [h] at heq
  cases hparam : param m' tokens with
  | error problem => rw [hparam] at heq; cases heq
  | ok found => rw [hparam] at heq; cases heq; rfl

theorem params_congr (m m' : Missing) (opening : Span) (tokens : List Token) :
    (params m opening tokens).result? = (params m' opening tokens).result? ∧
      (params m opening tokens).rest = (params m' opening tokens).rest := by
  fun_induction params m opening tokens with
  | case1 tokens problem hparam =>
    rw [params]
    split
    · exact ⟨rfl, rfl⟩
    · rename_i hparam'
      rw [param_ok_congr m' m hparam'] at hparam
      cases hparam
    · rename_i hparam'
      rw [param_ok_congr m' m hparam'] at hparam
      cases hparam
  | case2 tokens p hparam =>
    rw [params]
    split
    · exact ⟨rfl, rfl⟩
    · exact ⟨rfl, rfl⟩
    · rename_i hparam'
      rw [param_ok_congr m' m hparam'] at hparam
      cases hparam
  | case3 tokens p t rest hparam hcomma more ih =>
    rw [params_of_param (param_ok_congr m m' hparam), if_pos hcomma]
    exact ⟨congrArg (Option.map (p :: ·)) ih.1, ih.2⟩
  | case4 tokens p t rest hparam hcomma hclose =>
    rw [params_of_param (param_ok_congr m m' hparam), if_neg hcomma, if_pos hclose]
    exact ⟨rfl, rfl⟩
  | case5 tokens p t rest hparam hcomma hclose =>
    rw [params_of_param (param_ok_congr m m' hparam), if_neg hcomma, if_neg hclose]
    exact ⟨rfl, rfl⟩

theorem ancestor_congr (m m' : Missing) (t : Token) (tokens : List Token) :
    (ancestor m t tokens).result? = (ancestor m' t tokens).result? := by
  cases tokens with
  | nil => rfl
  | cons opening rest =>
    unfold ancestor
    dsimp only
    split
    · obtain ⟨hresult, hrest⟩ := params_congr m m' opening.span rest
      rw [hresult, hrest]
    · rfl

theorem fragment_congr (m m' : Missing) (t : Token) (tokens : List Token) :
    (fragment m t tokens).result? = (fragment m' t tokens).result? := by
  unfold fragment
  cases t.kind
  case ancestor => exact ancestor_congr m m' t tokens
  all_goals rfl

/-- What follows a segment decides where faults are found in it, but not what its step is. -/
theorem segment_congr (m m' : Missing) (t : Token) (tokens : List Token) :
    (segment m t tokens).fragment? = (segment m' t tokens).fragment? := by
  have hstep : ∀ m, (segment m t tokens).fragment? = (fragment m t tokens).result? := by
    intro m
    unfold segment
    dsimp only
    split <;> simp [*]
  rw [hstep, hstep, fragment_congr m m']

/-! ## Segments by themselves -/

theorem mem_pieces (h : piece ∈ pieces tokens) : NoSlash piece ∧ piece <:+: tokens := by
  have hnil : NoSlash [] := nofun
  induction tokens using path_induct with
  | nil =>
    rw [List.mem_singleton.1 h]
    exact ⟨hnil, List.infix_rfl⟩
  | single hnone =>
    rw [pieces_of_noSlash hnone, List.mem_singleton] at h
    rw [h]
    exact ⟨hnone, List.infix_rfl⟩
  | last hfront hslash =>
    rw [pieces_append hslash hfront, pieces_of_noSlash hnil, List.mem_cons, List.mem_singleton] at h
    rcases h with rfl | rfl
    · exact ⟨hfront, (List.prefix_append _ _).isInfix⟩
    · exact ⟨hnil, List.nil_infix⟩
  | more hfront hslash hrest ih =>
    rw [pieces_append hslash hfront, List.mem_cons] at h
    rcases h with rfl | h
    · exact ⟨hfront, (List.prefix_append _ _).isInfix⟩
    · obtain ⟨hnone, hpart⟩ := ih h
      exact ⟨hnone, hpart.trans ((List.suffix_cons _ _).trans (List.suffix_append _ _)).isInfix⟩

theorem readAlone_of_readAs {s : Segment} (hnone : NoSlash piece)
    (htext : ∃ own, Token.tokens own = piece) (h : ReadAs piece s) : ReadAlone piece s := by
  refine ⟨htext, fun own hown => ?_, ?_⟩
  · rw [Path.ofText, hown, path, List.filterMap_eq_flatMap_toList]
    cases h with
    | @step m t rest hpiece hs =>
      subst hpiece
      rw [pathSegments_of_noSlash hnone, hs, List.flatMap_singleton]
      exact congrArg Option.toList (segment_congr _ m t rest)
    | empty hpiece hs =>
      rw [hpiece, hs]
      rfl
  · cases h with
    | @step m t rest hpiece hs =>
      rw [hpiece, hs]
      constructor
      · intro hproblems
        obtain ⟨f, hsound⟩ := segment_reports m t rest hproblems
        exact ⟨f, segment_eq_sound_iff.1 hsound⟩
      · rintro ⟨f, hf⟩
        rw [(segment_eq_sound_iff (m := m)).2 hf]
        rfl
    | empty hpiece hs =>
      rw [hpiece, hs]
      refine iff_of_false (List.cons_ne_nil _ _) ?_
      rintro ⟨f, hf⟩
      exact not_isFragment_nil f hf

/-! ## Where the faults are -/

/-- Faults in front of a slash end before what stands behind it. -/
theorem stop_le_of_in_front {s : Segment} {slash : Token} {front : List Token}
    (h : Token.Sorted text (front ++ slash :: rest))
    (hs : s.ReadFrom { m with next? := some slash } front) (ht : t ∈ rest) :
    ∀ problem ∈ s.problems, problem.span.stop ≤ t.span.start := by
  have hreach : ∀ u ∈ front ++ [slash], u.span.start ≤ u.span.stop ∧ u.span.stop ≤ t.span.start := by
    have hsplit : front ++ slash :: rest = front ++ [slash] ++ rest := by simp
    rw [hsplit] at h
    exact fun u hu => ⟨(h.inside u (List.mem_append_left _ hu)).ordered,
      (List.pairwise_append.1 h.pairwise).2.2 u hu t ht⟩
  intro problem hmem
  have hmarks := hs.problems problem hmem
  generalize problem.span = span at hmarks ⊢
  cases hmarks with
  | token hu => exact (hreach _ hu).2
  | before hu => exact (hreach _ hu).1.trans (hreach _ hu).2
  | behind hu => exact (hreach _ hu).2
  | atEnd hnext => cases hnext

/-- Faults behind a slash begin after what stands in front of it. -/
theorem stop_le_of_behind {s : Segment} {slash : Token} {front : List Token}
    (h : Token.Sorted text (front ++ slash :: rest))
    (hs : s.ReadFrom ⟨none, byteLength text⟩ rest) (ht : t ∈ front) :
    ∀ problem ∈ s.problems, t.span.stop ≤ problem.span.start := by
  have hreach : ∀ u ∈ rest ++ [], t.span.stop ≤ u.span.start ∧ u.span.start ≤ u.span.stop := by
    rw [List.append_nil]
    intro u hu
    have hmem := List.mem_cons_of_mem slash hu
    exact ⟨(List.pairwise_append.1 h.pairwise).2.2 t ht u hmem,
      (h.inside u (List.mem_append_right _ hmem)).ordered⟩
  intro problem hmem
  have hmarks := hs.problems problem hmem
  generalize problem.span = span at hmarks ⊢
  cases hmarks with
  | token hu => exact (hreach _ hu).1
  | before hu => exact (hreach _ hu).1
  | behind hu => exact (hreach _ hu).1.trans (hreach _ hu).2
  | atEnd => exact (h.inside t (List.mem_append_left _ ht)).stop.le_byteLength

theorem pairwise_apart (h : Token.Sorted text tokens) :
    ((pieces tokens).zip (pathSegments ⟨none, byteLength text⟩ tokens)).Pairwise FaultsApart := by
  induction tokens using path_induct with
  | nil => exact .nil
  | single hnone =>
    rw [pieces_of_noSlash hnone, pathSegments_of_noSlash hnone]
    exact List.pairwise_singleton _ _
  | @last front slash hfront hslash =>
    have hnil : NoSlash [] := nofun
    rw [pieces_append hslash hfront, pieces_of_noSlash hnil, pathSegments_append hslash hfront, if_pos rfl]
    refine List.pairwise_pair.2 ⟨nofun, ?_⟩
    rintro problem (_ | ⟨_, ⟨⟩⟩) t ht
    have hle := (List.pairwise_append.1 h.pairwise).2.2 t ht slash List.mem_cons_self
    exact hle.trans (h.inside slash (by simp)).ordered
  | @more front slash rest hfront hslash hrest ih =>
    have hbehind : Token.Sorted text rest :=
      h.sublist ((List.sublist_cons_self _ _).trans (List.sublist_append_right _ _))
    rw [pieces_append hslash hfront, pathSegments_append hslash hfront, if_neg hrest, List.zip_cons_cons]
    refine List.pairwise_cons.2 ⟨?_, ih hbehind⟩
    rintro ⟨piece, s⟩ hb
    obtain ⟨hpiece, hs⟩ := List.of_mem_zip hb
    have hpart := (mem_pieces hpiece).2
    refine ⟨fun problem hmem t ht => ?_, fun problem hmem t ht => ?_⟩
    · exact stop_le_of_in_front h (readFrom_segmentBefore _ front slash) (hpart.subset ht) problem hmem
    · exact stop_le_of_behind h (pathSegments_spec _ rest s hs) ht problem hmem

end Grammar

/-- A path is read piece by piece, and recursive descent, which goes on behind the next slash after a
fault, reads the same. -/
theorem Path.ofText_local (text : List Char) (h : Token.tokens text ≠ []) :
    Path.byDescent text = Path.ofText text ∧
      ∃ segs, (Path.ofText text).ReadPiecewise
        ((Token.tokens text).splitOnP fun t => t.kind = .slash) segs := by
  rw [← pieces_eq_splitOnP]
  have hown : ∀ piece ∈ pieces (Token.tokens text),
      NoSlash piece ∧ ∃ own, Token.tokens own = piece := by
    intro piece hpiece
    obtain ⟨hnone, front, rest, hsplit⟩ := mem_pieces hpiece
    exact ⟨hnone, Token.exists_own hsplit.symm⟩
  have hreads := forall₂_pathSegments ⟨none, byteLength text⟩ h
  refine ⟨Path.byDescent_eq text, pathSegments ⟨none, byteLength text⟩ (Token.tokens text), ?_, rfl, rfl,
    pairwise_apart (Token.sorted_tokens text)⟩
  refine ((List.forall₂_and_left _ _).2 ⟨hown, hreads⟩).imp fun piece s hpiece => ?_
  obtain ⟨⟨hnone, htext⟩, hread⟩ := hpiece
  exact readAlone_of_readAs hnone htext hread

theorem Path.ofText_local_mark : Token.tokens "#/B".toList ≠ [] ∧
    Path.byDescent "#/B".toList = Path.ofText "#/B".toList ∧
      ∃ segs, (Path.ofText "#/B".toList).ReadPiecewise
        ((Token.tokens "#/B".toList).splitOnP fun t => t.kind = .slash) segs := by
  have h : Token.tokens "#/B".toList ≠ [] := by
    intro hnil
    have hblank := Token.worded_eq_nil_iff.1 (hnil : Token.worded 0 _ = []) '#' (by simp)
    exact absurd hblank (by decide)
  exact ⟨h, ofText_local _ h⟩

end Selector
end UILayout
