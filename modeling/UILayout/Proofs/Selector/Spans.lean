import UILayout.Proofs.Selector.Names
import UILayout.Proofs.Selector.Reading

/-!
# UILayout.Proofs.Selector.Spans

Where the faults and the fragments of a selector expression are: inside the expression, and in none of
them the end stands before the start. The tokens come one behind the other, and every span goes from
the start of a token to the end of the same token or of a later one.

* `Token.sorted_tokens`: tokens come one behind the other.
* `Path.inside_ofText`, `Bind.inside_ofText`: all spans that reading an expression gives.
-/

namespace UILayout

namespace Text

/-- A stretch of a text, which ends between characters. -/
structure Span.Inside (s : Span) (text : List Char) : Prop where
  ordered : s.start ≤ s.stop
  start : Boundary text s.start
  stop : Boundary text s.stop

theorem Span.inside_point {text : List Char} {offset : Nat} (h : Boundary text offset) :
    (point offset).Inside text := ⟨Nat.le_refl _, h, h⟩

theorem Span.inside_cover {text : List Char} {start stop : Nat} (hstart : Boundary text start)
    (hstop : Boundary text stop) : (cover start stop).Inside text := by
  refine ⟨start_le_stop_cover start stop, hstart, ?_⟩
  rcases Nat.le_total start stop with hle | hle
  · rwa [cover, Nat.max_eq_right hle]
  · rwa [cover, Nat.max_eq_left hle]

end Text

namespace Selector

open Text

/-! ## Spans of what is read -/

def Param.spans (p : Param) : List Span := [p.key.span, p.value.span, p.span]

/-- The spans of the names in a step and of its parameters. -/
def Step.spans : Step → List Span
  | .child name | .sibling name | .handle name => [name.span]
  | .ancestor params => params.flatMap Param.spans
  | _ => []

def Path.spans (p : Path) : List Span :=
  p.span :: (p.fragments.flatMap fun f => f.span :: f.step.spans) ++ p.problems.map (·.span)

def Bind.spans (b : Bind) : List Span :=
  b.span :: b.target.spans ++ b.property?.toList.map (·.span) ++ b.problems.map (·.span)

theorem Bind.span_mem_spans {b : Bind} {problem : Problem} (h : problem ∈ b.problems) :
    problem.span ∈ b.spans :=
  List.mem_append_right _ (List.mem_map_of_mem h)

/-! ## Tokens -/

namespace Token

/-- The tokens of a text, or some of them: one behind the other. -/
structure Sorted (text : List Char) (tokens : List Token) : Prop where
  inside : ∀ t ∈ tokens, t.span.Inside text
  pairwise : tokens.Pairwise fun t u => t.span.stop ≤ u.span.start
  /-- The name in a handle begins behind its dollar sign. -/
  handle : ∀ t ∈ tokens, t.kind = .handle → (⟨t.span.start + 1, t.span.stop⟩ : Span).Inside text

variable {text : List Char} {tokens rest : List Token} {t u : Token}

theorem Sorted.sublist (h : Sorted text tokens) (hsub : rest.Sublist tokens) : Sorted text rest :=
  ⟨fun t ht => h.inside t (hsub.subset ht), h.pairwise.sublist hsub,
    fun t ht => h.handle t (hsub.subset ht)⟩

theorem Sorted.tail (h : Sorted text (t :: rest)) : Sorted text rest :=
  h.sublist (List.sublist_cons_self t rest)

/-- From the first token to the end of another one. -/
theorem Sorted.inside_to (h : Sorted text (t :: rest)) (hu : u ∈ t :: rest) :
    (⟨t.span.start, u.span.stop⟩ : Span).Inside text := by
  have hfirst := h.inside t List.mem_cons_self
  have hlast := h.inside u hu
  refine ⟨?_, hfirst.start, hlast.stop⟩
  rcases List.mem_cons.1 hu with rfl | hu
  · exact hlast.ordered
  · have hnext := (List.pairwise_cons.1 h.pairwise).1 u hu
    exact hfirst.ordered.trans (hnext.trans hlast.ordered)

theorem handle_of_munch {c : Char} {cs : List Char} (h : (munch c cs).1 = .handle) :
    ∃ name, (munch c cs).2.1 = '$' :: name := by
  unfold munch at h ⊢
  split
  · rename_i hblank
    rw [if_pos hblank] at h
    cases h
  · rename_i hblank
    rw [if_neg hblank] at h
    split
    · rename_i hword
      rw [if_pos hword] at h
      cases h
    · rename_i hword
      rw [if_neg hword] at h
      split
      · rename_i hdollar
        subst hdollar
        split <;> exact ⟨_, rfl⟩
      · rename_i hdollar
        rw [if_neg hdollar] at h
        unfold kindOfMark at h
        split_ifs at h

/-- The tokens of a text from some place on. -/
theorem sorted_scanFrom (pos : Nat) (cs : List Char) {front : List Char} (hpos : pos = byteLength front) :
    Sorted (front ++ cs) (scanFrom pos cs) ∧ ∀ t ∈ scanFrom pos cs, pos ≤ t.span.start := by
  induction pos, cs using scan_induct generalizing front with
  | nil pos =>
    rw [scanFrom]
    exact ⟨⟨List.forall_mem_nil _, .nil, List.forall_mem_nil _⟩, List.forall_mem_nil _⟩
  | cons pos c cs ih =>
    have htext : front ++ (munch c cs).2.1 ++ (munch c cs).2.2 = front ++ (c :: cs) := by
      rw [List.append_assoc, munch_append]
    have hstop : pos + byteLength (munch c cs).2.1 = byteLength (front ++ (munch c cs).2.1) := by
      rw [byteLength_append, hpos]
    obtain ⟨hsorted, hstart⟩ := ih hstop
    rw [htext] at hsorted
    rw [scanFrom_cons]
    refine ⟨⟨?_, ?_, ?_⟩, ?_⟩
    · rintro t (_ | ⟨_, ht⟩)
      · exact ⟨Nat.le_add_right _ _, ⟨front, c :: cs, rfl, hpos⟩, ⟨_, _, htext.symm, hstop⟩⟩
      · exact hsorted.inside t ht
    · exact List.pairwise_cons.2 ⟨hstart, hsorted.pairwise⟩
    · rintro t (_ | ⟨_, ht⟩) hkind
      · obtain ⟨name, hname⟩ := handle_of_munch hkind
        have hdollar : '$'.utf8Size = 1 := rfl
        rw [hname] at htext hstop ⊢
        refine ⟨?_, ⟨front ++ ['$'], name ++ (munch c cs).2.2, ?_, ?_⟩, ⟨_, _, htext.symm, hstop⟩⟩
        · simp only [byteLength_cons, hdollar]
          omega
        · rw [← htext]
          simp
        · rw [byteLength_append, hpos]
          rfl
      · exact hsorted.handle t ht hkind
    · rintro t (_ | ⟨_, ht⟩)
      · exact Nat.le_refl _
      · exact (Nat.le_add_right _ _).trans (hstart t ht)

theorem sorted_tokens (text : List Char) : Sorted text (Token.tokens text) := by
  have hsorted := (@sorted_scanFrom 0 text [] rfl).1
  exact hsorted.sublist List.filter_sublist

end Token

/-! ## Missing tokens -/

/-- What is missed is missed inside the text. -/
structure Missing.Inside (m : Missing) (text : List Char) : Prop where
  next? : ∀ t, m.next? = some t → t.span.Inside text
  length : Boundary text m.length

structure Fragment.Inside (f : Fragment) (text : List Char) : Prop where
  span : f.span.Inside text
  step : ∀ s ∈ f.step.spans, s.Inside text

/-- What is read of a path is in the text. -/
structure Path.Inside (p : Path) (text : List Char) : Prop where
  problems : ∀ problem ∈ p.problems, problem.span.Inside text
  fragments : ∀ f ∈ p.fragments, f.Inside text
  span : p.span.Inside text

theorem Path.Inside.withoutProblems {p : Path} {text : List Char} (h : p.Inside text) :
    ({ p with problems := [] } : Path).Inside text :=
  ⟨by simp, h.fragments, h.span⟩

theorem Path.Inside.spans {p : Path} {text : List Char} (h : p.Inside text) :
    ∀ s ∈ p.spans, s.Inside text := by
  intro s hs
  rcases List.mem_append.1 hs with hs | hs
  · rcases List.mem_cons.1 hs with rfl | hs
    · exact h.span
    · obtain ⟨f, hf, hs⟩ := List.mem_flatMap.1 hs
      rcases List.mem_cons.1 hs with rfl | hs
      · exact (h.fragments f hf).span
      · exact (h.fragments f hf).step s hs
  · obtain ⟨problem, hproblem, rfl⟩ := List.mem_map.1 hs
    exact h.problems problem hproblem

variable {text : List Char} {m : Missing} {tokens rest : List Token}

theorem Missing.Marks.inside {s : Span} (hm : m.Inside text) (h : ∀ t ∈ tokens, t.span.Inside text)
    (hs : m.Marks tokens s) : s.Inside text := by
  have hreach : ∀ t ∈ m.reach tokens, t.span.Inside text := by
    intro t ht
    rcases List.mem_append.1 ht with ht | ht
    · exact h t ht
    · exact hm.next? t (Option.mem_toList.1 ht)
  cases hs with
  | token ht => exact hreach _ ht
  | before ht => exact Span.inside_point (hreach _ ht).start
  | behind ht => exact Span.inside_point (hreach _ ht).stop
  | atEnd => exact Span.inside_point hm.length

theorem Stretch.inside {s : Span} (h : Token.Sorted text tokens) (hs : Stretch tokens s) :
    s.Inside text := by
  obtain ⟨first, last, hfirst, hlast, rfl⟩ := hs
  obtain ⟨rest, rfl⟩ := List.head?_eq_some_iff.1 hfirst
  exact h.inside_to (List.mem_of_getLast? hlast)

theorem Fragment.ReadFrom.inside {f : Fragment} (hf : f.ReadFrom tokens) (h : Token.Sorted text tokens) :
    f.Inside text := by
  obtain ⟨hspan, hname, hparams⟩ := hf
  have hnames : ∀ name, f.step.name? = some name → name.span.Inside text := by
    intro name hstep
    rcases hname name hstep with ⟨t, ht, rfl⟩ | ⟨t, ht, hkind, rfl⟩
    · exact h.inside t ht
    · exact h.handle t ht hkind
  have hparam : ∀ p ∈ f.step.params, ∀ s ∈ p.spans, s.Inside text := by
    intro p hp s hs
    obtain ⟨⟨key, hkey, hkeyText⟩, ⟨value, hvalue, hvalueText⟩, part, hpart, hstretch⟩ := hparams p hp
    simp only [Param.spans, List.mem_cons, List.not_mem_nil, or_false] at hs
    rcases hs with rfl | rfl | rfl
    · rw [hkeyText]
      exact h.inside key hkey
    · rw [hvalueText]
      exact h.inside value hvalue
    · exact hstretch.inside (h.sublist hpart.sublist)
  refine ⟨hspan.inside h, fun s hs => ?_⟩
  obtain ⟨step, span⟩ := f
  cases step with
  | child name | sibling name | handle name =>
    rw [List.mem_singleton.1 hs]
    exact hnames name rfl
  | ancestor params =>
    obtain ⟨p, hp, hs⟩ := List.mem_flatMap.1 hs
    exact hparam p hp s hs
  | this | parent | root | layer => cases hs

namespace Grammar

open Token

theorem path_inside (hm : m.Inside text) (h : Sorted text tokens) :
    (path m tokens).Inside text := by
  have hsegments := pathSegments_spec m tokens
  refine ⟨fun problem hmem => ?_, fun f hmem => ?_, ?_⟩
  · obtain ⟨s, hs, hmem⟩ := List.mem_flatMap.1 hmem
    exact ((hsegments s hs).problems problem hmem).inside hm h.inside
  · obtain ⟨s, hs, hf⟩ := List.mem_filterMap.1 hmem
    obtain ⟨used, hused, hread⟩ := (hsegments s hs).fragment? f hf
    exact hread.inside (h.sublist hused.sublist)
  · have hstart := (m.marks_span tokens).inside hm h.inside
    refine Span.inside_cover hstart.start ?_
    cases hlast : tokens.getLast? with
    | none => exact hstart.start
    | some t => exact (h.inside t (List.mem_of_getLast? hlast)).stop

/-! ## Properties -/

theorem trailing_inside (h : Sorted text tokens) :
    ∀ problem ∈ trailing tokens, problem.span.Inside text := by
  cases tokens with
  | nil => exact nofun
  | cons t rest =>
    rintro problem (_ | ⟨_, ⟨⟩⟩)
    cases hlast : (t :: rest).getLast? with
    | none => simp at hlast
    | some last => exact h.inside_to (List.mem_of_getLast? hlast)

theorem property_inside (h : Sorted text tokens) :
    (∀ problem ∈ (property (byteLength text) tokens).2, problem.span.Inside text) ∧
      ∀ name, (property (byteLength text) tokens).1 = some name → name.span.Inside text := by
  have hend : (Missing.mk none (byteLength text)).Inside text := ⟨nofun, boundary_byteLength text⟩
  unfold property
  split
  · refine ⟨?_, nofun⟩
    rintro problem (_ | ⟨_, ⟨⟩⟩)
    exact Span.inside_point (boundary_byteLength text)
  · rename_i dot rest
    split
    · rename_i name extra hname
      obtain ⟨t, rfl, -, rfl⟩ := ident?_eq_some_iff.1 hname
      refine ⟨trailing_inside h.tail.tail, ?_⟩
      rintro name ⟨⟩
      exact h.inside t (by simp)
    · refine ⟨?_, nofun⟩
      rintro problem (_ | ⟨_, hmem⟩)
      · have hmissing := (Missing.marks_span _ rest).inside hend h.tail.inside
        exact Span.inside_point hmissing.start
      · exact trailing_inside h.tail problem hmem

end Grammar

theorem Path.inside_ofText (text : List Char) :
    (ofText text).Inside text :=
  Grammar.path_inside ⟨nofun, boundary_byteLength text⟩ (Token.sorted_tokens text)

theorem Bind.inside_ofText (text : List Char) :
    ∀ s ∈ (Bind.ofText text).spans, s.Inside text := by
  have hsorted := Token.sorted_tokens text
  have hafter : Token.Sorted text ((Token.tokens text).dropWhile (·.kind ≠ .dot)) :=
    hsorted.sublist (List.dropWhile_sublist _)
  have hmissing : Missing.Inside
      ⟨((Token.tokens text).dropWhile (·.kind ≠ .dot)).head?, byteLength text⟩ text :=
    ⟨fun t ht => hafter.inside t (List.mem_of_head? ht), boundary_byteLength text⟩
  have htarget := Grammar.path_inside hmissing
    (hsorted.sublist (List.takeWhile_sublist fun t => t.kind ≠ .dot))
  have hend : (Missing.mk none (byteLength text)).Inside text := ⟨nofun, boundary_byteLength text⟩
  obtain ⟨hproblems, hname⟩ := Grammar.property_inside hafter
  intro s hs
  simp only [Bind.ofText, Bind.spans, List.mem_append, List.mem_cons, List.mem_map,
    Option.mem_toList] at hs
  rcases hs with ((rfl | hs) | ⟨name, hfound, rfl⟩) | ⟨problem, hmem, rfl⟩
  · refine Span.inside_cover htarget.span.start ?_
    cases hfound : (Grammar.property (byteLength text)
      ((Token.tokens text).dropWhile (·.kind ≠ .dot))).1 with
    | none => exact htarget.span.stop
    | some name => exact (hname name hfound).stop
  · exact htarget.withoutProblems.spans s hs
  · exact hname name hfound
  · rcases hmem with (hmem | hmem) | hmem
    · exact htarget.problems problem hmem
    · split at hmem
      · rw [List.mem_singleton.1 hmem]
        have hstart := (Missing.marks_span _ _).inside hend hafter.inside
        exact Span.inside_point hstart.start
      · cases hmem
    · exact hproblems problem hmem

end Selector
end UILayout
