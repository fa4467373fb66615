import UILayout.Proofs.Selector.Segments

/-!
# UILayout.Proofs.Selector.Reading

What reading a path takes from its tokens. A step is read from tokens that stand side by side: it reaches
from the first of them to the last, and its names are what tokens among them spell. A fault is found at a
token, at one of its ends, or, where the tokens end with the text, there.

* `param_spec`, `params_spec`, `fragment_spec`: the routines of the grammar.
* `pathSegments_spec`: all steps and all faults of a path.
-/

namespace UILayout
namespace Selector

open Text

/-- From the first of some tokens to the last one. -/
def Stretch (tokens : List Token) (s : Span) : Prop :=
  ∃ first last, tokens.head? = some first ∧ tokens.getLast? = some last ∧
    s = ⟨first.span.start, last.span.stop⟩

/-- A name that is spelled by one of some tokens. -/
def Ident.ReadFrom (i : Ident) (tokens : List Token) : Prop := ∃ t ∈ tokens, i = t.ident

structure Param.ReadFrom (p : Param) (tokens : List Token) : Prop where
  key : p.key.ReadFrom tokens
  value : p.value.ReadFrom tokens
  span : ∃ part, part <:+: tokens ∧ Stretch part p.span

structure Fragment.ReadFrom (f : Fragment) (tokens : List Token) : Prop where
  span : Stretch tokens f.span
  name? : ∀ name, f.step.name? = some name →
    name.ReadFrom tokens ∨ ∃ t ∈ tokens, t.kind = .handle ∧ name = t.handle
  params : ∀ p ∈ f.step.params, p.ReadFrom tokens

/-- The tokens that are looked at: those of a segment and the one behind it. -/
def Missing.reach (m : Missing) (tokens : List Token) : List Token := tokens ++ m.next?.toList

/-- Where faults are found. -/
inductive Missing.Marks (m : Missing) (tokens : List Token) : Span → Prop where
  | token {t : Token} : t ∈ m.reach tokens → Marks m tokens t.span
  | before {t : Token} : t ∈ m.reach tokens → Marks m tokens (.point t.span.start)
  | behind {t : Token} : t ∈ m.reach tokens → Marks m tokens (.point t.span.stop)
  | atEnd : m.next? = none → Marks m tokens (.point m.length)

/-- What reading a step gives, and what it leaves. -/
structure Reading.ReadFrom (m : Missing) (tokens : List Token) (r : Reading Fragment) : Prop where
  problems : ∀ problem ∈ r.problems, m.Marks tokens problem.span
  result? : ∀ f, r.result? = some f → ∃ used, tokens = used ++ r.rest ∧ f.ReadFrom used

variable {m m' : Missing} {tokens rest used part : List Token} {t : Token} {s : Span}

theorem Ident.ReadFrom.mono {i : Ident} (h : i.ReadFrom used) (hsub : used ⊆ tokens) :
    i.ReadFrom tokens := by
  obtain ⟨t, ht, hi⟩ := h
  exact ⟨t, hsub ht, hi⟩

theorem Param.ReadFrom.mono {p : Param} (h : p.ReadFrom used) (hpart : used <:+: tokens) :
    p.ReadFrom tokens := by
  obtain ⟨part, hsub, hspan⟩ := h.span
  exact ⟨h.key.mono hpart.subset, h.value.mono hpart.subset, part, hsub.trans hpart, hspan⟩

theorem Missing.Marks.mono (h : m.Marks used s) (hreach : m.reach used ⊆ m'.reach tokens)
    (hend : m.next? = none → m'.next? = none ∧ m.length = m'.length) : m'.Marks tokens s := by
  cases h with
  | token ht => exact .token (hreach ht)
  | before ht => exact .before (hreach ht)
  | behind ht => exact .behind (hreach ht)
  | atEnd hnext =>
    obtain ⟨hnext, hlength⟩ := hend hnext
    rw [hlength]
    exact .atEnd hnext

/-- What is found in a part of the tokens is found in them. -/
theorem Missing.Marks.of_subset (h : m.Marks used s) (hsub : used ⊆ tokens) : m.Marks tokens s := by
  refine h.mono ?_ fun hnext => ⟨hnext, rfl⟩
  exact List.append_subset.2 ⟨List.subset_append_of_subset_left _ hsub, List.subset_append_right _ _⟩

theorem Missing.marks_span (m : Missing) (tokens : List Token) : m.Marks tokens (m.span tokens) := by
  cases tokens with
  | cons t rest => exact .token List.mem_cons_self
  | nil =>
    rw [Missing.span]
    cases hnext : m.next? with
    | none => exact .atEnd hnext
    | some t => exact .token (by simp [Missing.reach, hnext])

theorem Missing.mem_reach (ht : t ∈ tokens) : t ∈ m.reach tokens := List.mem_append_left _ ht

namespace Grammar

/-! ## Parameters -/

/-- Before a parameter stands a sign, or nothing. -/
theorem eq_append_dropAt (tokens : List Token) : ∃ sign, tokens = sign ++ dropAt tokens := by
  cases tokens with
  | nil => exact ⟨[], rfl⟩
  | cons t rest =>
    rw [dropAt]
    split
    · exact ⟨[t], rfl⟩
    · exact ⟨[], rfl⟩

theorem param_spec (m : Missing) (tokens : List Token) :
    match param m tokens with
    | .error problem => m.Marks tokens problem.span
    | .ok (p, rest) => ∃ used, tokens = used ++ rest ∧ used ≠ [] ∧ p.ReadFrom used := by
  obtain ⟨sign, htokens⟩ := eq_append_dropAt tokens
  have hsub : dropAt tokens ⊆ tokens := by
    nth_rewrite 2 [htokens]
    exact List.subset_append_right _ _
  unfold param
  cases hkey : ident? (dropAt tokens) with
  | none => exact (m.marks_span _).of_subset hsub
  | some found =>
    obtain ⟨key, afterKey⟩ := found
    obtain ⟨k, hdrop, -, rfl⟩ := ident?_eq_some_iff.1 hkey
    rw [hdrop] at htokens hsub
    have hequals : m.Marks tokens (.point k.span.stop) :=
      .behind (Missing.mem_reach (hsub List.mem_cons_self))
    cases afterKey with
    | nil => exact hequals
    | cons eq afterEq =>
      by_cases heq : eq.kind = .equals
      · simp only [if_pos heq]
        cases hvalue : ident? afterEq with
        | none =>
          refine (m.marks_span _).of_subset fun t ht => hsub ?_
          exact List.mem_cons_of_mem _ (List.mem_cons_of_mem _ ht)
        | some found =>
          obtain ⟨value, rest⟩ := found
          obtain ⟨v, rfl, -, rfl⟩ := ident?_eq_some_iff.1 hvalue
          have hused : tokens = (sign ++ [k, eq, v]) ++ rest := by simp [htokens]
          refine ⟨sign ++ [k, eq, v], hused, by simp, ?_⟩
          refine ⟨⟨k, by simp, rfl⟩, ⟨v, by simp, rfl⟩, _, List.infix_rfl, ?_⟩
          obtain ⟨first, others, hfirst⟩ := List.exists_cons_of_ne_nil
            (List.append_ne_nil_of_right_ne_nil sign (List.cons_ne_nil k [eq, v]))
          refine ⟨first, v, by rw [hfirst]; rfl, by simp, ?_⟩
          rw [hused, hfirst]
          rfl
      · simp only [if_neg heq]
        exact hequals

theorem param_ok_spec {p : Param} (h : param m tokens = .ok (p, rest)) :
    ∃ used, tokens = used ++ rest ∧ used ≠ [] ∧ p.ReadFrom used := by
  have hspec := param_spec m tokens
  rwa [h] at hspec

theorem keyProblems_spec {p : Param} (h : p.ReadFrom tokens) :
    ∀ problem ∈ keyProblems p, m.Marks tokens problem.span := by
  obtain ⟨t, ht, hkey⟩ := h.key
  unfold keyProblems
  split
  · rintro problem (_ | ⟨_, ⟨⟩⟩)
    rw [hkey]
    exact .token (Missing.mem_reach ht)
  · exact nofun

/-- Faults of a parameter list are found at its tokens, or at the bracket that opens it. -/
theorem params_spec (m : Missing) (opening : Span) (tokens : List Token) :
    (∀ problem ∈ (params m opening tokens).problems,
        problem.span = opening ∨ m.Marks tokens problem.span) ∧
      ∀ ps, (params m opening tokens).result? = some ps →
        ∃ used, tokens = used ++ (params m opening tokens).rest ∧ used ≠ [] ∧
          ∀ p ∈ ps, p.ReadFrom used := by
  have hkey : ∀ {tokens : List Token} {p : Param} {rest : List Token}, param m tokens = .ok (p, rest) →
      ∀ problem ∈ keyProblems p, problem.span = opening ∨ m.Marks tokens problem.span := by
    intro tokens p rest hparam problem hmem
    obtain ⟨used, htokens, -, hp⟩ := param_ok_spec hparam
    exact .inr (keyProblems_spec (hp.mono ⟨[], rest, htokens.symm⟩) problem hmem)
  have hunclosed : ∀ {tokens : List Token} {p : Param} {rest : List Token},
      param m tokens = .ok (p, rest) → ∀ problem ∈ keyProblems p ++ [⟨.unclosedBracket, opening⟩],
        problem.span = opening ∨ m.Marks tokens problem.span := by
    intro tokens p rest hparam problem hmem
    rcases List.mem_append.1 hmem with hmem | hmem
    · exact hkey hparam problem hmem
    · exact .inl (by rw [List.mem_singleton.1 hmem])
  fun_induction params m opening tokens with
  | case1 tokens problem hparam =>
    have hspec := param_spec m tokens
    rw [hparam] at hspec
    refine ⟨?_, by rintro ps ⟨⟩⟩
    rintro problem' (_ | ⟨_, ⟨⟩⟩)
    exact .inr hspec
  | case2 tokens p hparam => exact ⟨hunclosed hparam, by rintro ps ⟨⟩⟩
  | case3 tokens p t rest hparam hcomma more ih =>
    obtain ⟨used, htokens, -, hp⟩ := param_ok_spec hparam
    obtain ⟨hproblems, hresult⟩ := ih
    refine ⟨fun problem hmem => ?_, fun ps hps => ?_⟩
    · rcases List.mem_append.1 hmem with hmem | hmem
      · exact hkey hparam problem hmem
      · refine (hproblems problem hmem).imp_right fun hmarks => hmarks.of_subset ?_
        rw [htokens]
        exact List.subset_append_of_subset_right _ (List.subset_cons_self t rest)
    · obtain ⟨others, hothers, rfl⟩ := Option.map_eq_some_iff.1 hps
      obtain ⟨behind, hrest, -, hmore⟩ := hresult others hothers
      refine ⟨used ++ t :: behind, ?_, by simp, List.forall_mem_cons.2 ⟨?_, fun q hq => ?_⟩⟩
      · rw [htokens, hrest, List.append_assoc]
        rfl
      · exact hp.mono (List.prefix_append used _).isInfix
      · exact (hmore q hq).mono ⟨used ++ [t], [], by simp⟩
  | case4 tokens p t rest hparam hcomma hclose =>
    obtain ⟨used, htokens, -, hp⟩ := param_ok_spec hparam
    refine ⟨hkey hparam, ?_⟩
    rintro ps ⟨⟩
    refine ⟨used ++ [t], by rw [htokens]; simp, by simp, ?_⟩
    rintro q (_ | ⟨_, ⟨⟩⟩)
    exact hp.mono (List.prefix_append used _).isInfix
  | case5 tokens p t rest hparam hcomma hclose => exact ⟨hunclosed hparam, by rintro ps ⟨⟩⟩

/-! ## Fragments -/

theorem consumedEnd_append (start : Nat) (used rest : List Token) :
    consumedEnd start (used ++ rest) rest = (used.getLast?.map (·.span.stop)).getD start := by
  rw [consumedEnd, List.length_append, Nat.add_sub_cancel, List.take_left]

/-- A step that is one token. -/
theorem readFrom_token {step : Step} (hname : ∀ name, step.name? = some name → name = t.ident ∨
      t.kind = .handle ∧ name = t.handle) (hparams : step.params = []) :
    (⟨step, t.span⟩ : Fragment).ReadFrom [t] := by
  refine ⟨⟨t, t, rfl, rfl, rfl⟩, fun name h => ?_, fun p hp => ?_⟩
  · rcases hname name h with hident | hhandle
    · exact .inl ⟨t, List.mem_cons_self, hident⟩
    · exact .inr ⟨t, List.mem_cons_self, hhandle⟩
  · rw [hparams] at hp
    cases hp

/-- A step that is read without a fault. -/
theorem readFrom_some {f : Fragment} (h : f.ReadFrom used) :
    Reading.ReadFrom m (used ++ rest) ⟨some f, [], rest⟩ := by
  refine ⟨nofun, ?_⟩
  rintro g ⟨⟩
  exact ⟨used, rfl, h⟩

/-- A fault in place of a step. -/
theorem readFrom_none {problem : Problem} (h : m.Marks tokens problem.span) :
    Reading.ReadFrom m tokens ⟨none, [problem], []⟩ := by
  refine ⟨?_, nofun⟩
  rintro problem' (_ | ⟨_, ⟨⟩⟩)
  exact h

theorem sibling_spec (m : Missing) (t : Token) (tokens : List Token) :
    (sibling t tokens).ReadFrom m (t :: tokens) := by
  have hkeyword : m.Marks (t :: tokens) t.span := .token (Missing.mem_reach List.mem_cons_self)
  unfold sibling
  cases tokens with
  | nil => exact readFrom_none hkeyword
  | cons dash tokens =>
    by_cases hdash : dash.kind = .minus
    · simp only [if_pos hdash]
      cases hname : ident? tokens with
      | none =>
        exact readFrom_none (.behind (Missing.mem_reach (List.mem_cons_of_mem _ List.mem_cons_self)))
      | some found =>
        obtain ⟨name, rest⟩ := found
        obtain ⟨n, rfl, -, rfl⟩ := ident?_eq_some_iff.1 hname
        have hread : (⟨.sibling n.ident, ⟨t.span.start, n.span.stop⟩⟩ : Fragment).ReadFrom [t, dash, n] := by
          refine ⟨⟨t, n, rfl, rfl, rfl⟩, ?_, nofun⟩
          rintro name ⟨⟩
          exact .inl ⟨n, by simp, rfl⟩
        exact readFrom_some hread
    · simp only [if_neg hdash]
      exact readFrom_none hkeyword

theorem ancestor_spec (m : Missing) (t : Token) (tokens : List Token) :
    (ancestor m t tokens).ReadFrom m (t :: tokens) := by
  have halone : (⟨.ancestor [], t.span⟩ : Fragment).ReadFrom [t] := readFrom_token nofun rfl
  unfold ancestor
  cases tokens with
  | nil => exact readFrom_some halone
  | cons opening tokens =>
    by_cases hopening : opening.kind = .openBracket
    · simp only [if_pos hopening]
      obtain ⟨hproblems, hresult⟩ := params_spec m opening.span tokens
      refine ⟨fun problem hmem => ?_, fun f hf => ?_⟩
      · rcases hproblems problem hmem with hspan | hmarks
        · rw [hspan]
          exact .token (Missing.mem_reach (List.mem_cons_of_mem _ List.mem_cons_self))
        · exact hmarks.of_subset fun u hu => List.mem_cons_of_mem _ (List.mem_cons_of_mem _ hu)
      · obtain ⟨ps, hps, rfl⟩ := Option.map_eq_some_iff.1 hf
        obtain ⟨used, htokens, hused, hreads⟩ := hresult ps hps
        have hpart : used <:+: t :: opening :: used := ⟨[t, opening], [], by simp⟩
        obtain ⟨front, last, rfl⟩ := (List.eq_nil_or_concat' used).resolve_left hused
        refine ⟨t :: opening :: (front ++ [last]), ?_, ⟨t, last, rfl, ?_, ?_⟩, nofun, fun p hp =>
          (hreads p hp).mono hpart⟩
        · exact congrArg (t :: opening :: ·) htokens
        · rw [← List.cons_append, ← List.cons_append, List.getLast?_concat]
        · nth_rewrite 1 [htokens]
          rw [consumedEnd_append, List.getLast?_concat]
          rfl
    · simp only [if_neg hopening]
      exact readFrom_some halone

theorem fragment_spec (m : Missing) (t : Token) (tokens : List Token) :
    (fragment m t tokens).ReadFrom m (t :: tokens) := by
  have hfault : m.Marks (t :: tokens) t.span := .token (Missing.mem_reach List.mem_cons_self)
  unfold fragment
  cases hkind : t.kind
  case sibling => exact sibling_spec m t tokens
  case ancestor => exact ancestor_spec m t tokens
  case ident =>
    refine readFrom_some (readFrom_token ?_ rfl)
    rintro name ⟨⟩
    exact .inl rfl
  case handle =>
    refine readFrom_some (readFrom_token ?_ rfl)
    rintro name ⟨⟩
    exact .inr ⟨hkind, rfl⟩
  case this | parent | root | layer =>
    refine readFrom_some (readFrom_token ?_ rfl)
    rintro name ⟨⟩
  all_goals exact readFrom_none hfault

/-! ## Segments -/

structure Segment.ReadFrom (m : Missing) (tokens : List Token) (s : Segment) : Prop where
  problems : ∀ problem ∈ s.problems, m.Marks tokens problem.span
  fragment? : ∀ f, s.fragment? = some f → ∃ used, used <:+: tokens ∧ f.ReadFrom used

variable {front : List Token} {slash : Token} {seg : Segment}

theorem readFrom_segment (m : Missing) (t : Token) (tokens : List Token) :
    (segment m t tokens).ReadFrom m (t :: tokens) := by
  obtain ⟨hproblems, hresult⟩ := fragment_spec m t tokens
  unfold segment
  dsimp only
  split
  · rename_i f extra rest hf hrest
    obtain ⟨used, htokens, hread⟩ := hresult f hf
    rw [hrest] at htokens
    refine ⟨fun problem hmem => ?_, ?_⟩
    · rcases List.mem_append.1 hmem with hmem | hmem
      · exact hproblems problem hmem
      · rw [List.mem_singleton.1 hmem, htokens]
        exact .token (Missing.mem_reach (List.mem_append_right _ List.mem_cons_self))
    · rintro g ⟨⟩
      exact ⟨used, ⟨[], _, htokens.symm⟩, hread⟩
  · rename_i f hf hrest
    obtain ⟨used, htokens, hread⟩ := hresult f hf
    refine ⟨hproblems, ?_⟩
    rintro g ⟨⟩
    exact ⟨used, ⟨[], _, htokens.symm⟩, hread⟩
  · exact ⟨hproblems, nofun⟩

/-- A segment without tokens, which is one fault. -/
theorem readFrom_empty {problem : Problem} (h : m.Marks tokens problem.span) :
    Segment.ReadFrom m tokens ⟨none, [problem]⟩ := by
  refine ⟨?_, nofun⟩
  rintro problem' (_ | ⟨_, ⟨⟩⟩)
  exact h

theorem readFrom_segmentBefore (m : Missing) (tokens : List Token) (slash : Token) :
    (segmentBefore { m with next? := some slash } tokens slash).ReadFrom
      { m with next? := some slash } tokens := by
  cases tokens with
  | nil => exact readFrom_empty (.before List.mem_cons_self)
  | cons t rest => exact readFrom_segment _ t rest

/-- What is read in front of a slash is read in the path. -/
theorem Segment.ReadFrom.in_front (h : seg.ReadFrom { m with next? := some slash } front) :
    seg.ReadFrom m (front ++ slash :: rest) := by
  refine ⟨fun problem hmem => (h.problems problem hmem).mono ?_ nofun, fun f hf => ?_⟩
  · intro t ht
    refine Missing.mem_reach ?_
    rcases List.mem_append.1 ht with ht | ht
    · exact List.mem_append_left _ ht
    · rw [List.mem_singleton.1 ht]
      simp
  · obtain ⟨used, hused, hread⟩ := h.fragment? f hf
    exact ⟨used, hused.trans (List.prefix_append _ _).isInfix, hread⟩

theorem Segment.ReadFrom.behind (front : List Token) (h : seg.ReadFrom m rest) :
    seg.ReadFrom m (front ++ rest) := by
  refine ⟨fun problem hmem => (h.problems problem hmem).of_subset (List.subset_append_right _ _),
    fun f hf => ?_⟩
  obtain ⟨used, hused, hread⟩ := h.fragment? f hf
  exact ⟨used, hused.trans (List.suffix_append _ _).isInfix, hread⟩

/-- The segments of a path are read from its tokens. -/
theorem pathSegments_spec (m : Missing) (tokens : List Token) :
    ∀ s ∈ pathSegments m tokens, s.ReadFrom m tokens := by
  induction tokens using path_induct with
  | nil => exact nofun
  | single hnone =>
    rw [pathSegments_of_noSlash hnone]
    rintro s (_ | ⟨_, ⟨⟩⟩)
    exact readFrom_segment m _ _
  | @last front slash hfront hslash =>
    rw [pathSegments_append hslash hfront, if_pos rfl]
    rintro s (_ | ⟨_, _ | ⟨_, ⟨⟩⟩⟩)
    · exact (readFrom_segmentBefore m front slash).in_front
    · exact readFrom_empty (.behind (Missing.mem_reach (by simp)))
  | @more front slash rest hfront hslash hrest ih =>
    rw [pathSegments_append hslash hfront, if_neg hrest]
    rintro s (_ | ⟨_, hs⟩)
    · exact (readFrom_segmentBefore m front slash).in_front
    · have hread := (ih s hs).behind (front ++ [slash])
      rwa [List.append_assoc] at hread

end Grammar
end Selector
end UILayout
