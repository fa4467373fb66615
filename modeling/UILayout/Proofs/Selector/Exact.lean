import Mathlib.Data.List.Forall2
import UILayout.Selector.Grammar

/-!
# UILayout.Proofs.Selector.Exact

The grammar of path selectors as derivations, and reading as deciding it. `IsPath tokens fragments` is
the grammar: it mentions no reader and derives from a list of tokens the fragments that they spell.

* `params_eq_iff`, `segment_eq_sound_iff`: a bracket, and what stands between two slashes, are read
  without a fault just when the grammar derives them.
* `isFragments_iff`: a path is derived just when every piece between its slashes is.
* `Path.ofText_exact`: a text is read without a fault just when the grammar derives its tokens, and
  then the fragments are those that it derives.
-/

namespace UILayout
namespace Selector

open Text

/-! ## The grammar -/

/-- The name that a token spells. -/
def Token.ident (t : Token) : Ident := ⟨t.text, t.span⟩

/-- The name of a handle, which stands behind its `$`. -/
def Token.handle (t : Token) : Ident :=
  ⟨String.ofList (t.text.toList.drop 1), ⟨t.span.start + 1, t.span.stop⟩⟩

/-- `key=value`, for a key that names a filter. -/
def IsPair (key eq value : Token) : Prop :=
  key.kind = .ident ∧ key.text ∈ ["type", "oftype", "name"] ∧ eq.kind = .equals ∧
    value.kind = .ident

/-- One parameter, with or without an `@`. -/
inductive IsParam : List Token → Param → Prop where
  | plain {key eq value : Token} : IsPair key eq value →
      IsParam [key, eq, value] ⟨key.ident, value.ident, ⟨key.span.start, value.span.stop⟩⟩
  | sign {sign key eq value : Token} : sign.kind = .atSign → IsPair key eq value →
      IsParam [sign, key, eq, value] ⟨key.ident, value.ident, ⟨sign.span.start, value.span.stop⟩⟩

/-- Parameters with commas between them, at least one. -/
inductive IsParams : List Token → List Param → Prop where
  | one {tokens : List Token} {p : Param} : IsParam tokens p → IsParams tokens [p]
  | more {tokens rest : List Token} {comma : Token} {p : Param} {ps : List Param} :
      IsParam tokens p → comma.kind = .comma → IsParams rest ps →
      IsParams (tokens ++ comma :: rest) (p :: ps)

/-- The reserved words that are a fragment by themselves. -/
def TokenKind.step? : TokenKind → Option Step
  | .this => some .this
  | .parent => some .parent
  | .root => some .root
  | .layer => some .layer
  | .ancestor => some (.ancestor [])
  | _ => none

inductive IsFragment : List Token → Fragment → Prop where
  | child {t : Token} : t.kind = .ident → IsFragment [t] ⟨.child t.ident, t.span⟩
  | handle {t : Token} : t.kind = .handle → IsFragment [t] ⟨.handle t.handle, t.span⟩
  | word {t : Token} {step : Step} : t.kind.step? = some step → IsFragment [t] ⟨step, t.span⟩
  | sibling {t dash name : Token} : t.kind = .sibling → dash.kind = .minus → name.kind = .ident →
      IsFragment [t, dash, name] ⟨.sibling name.ident, ⟨t.span.start, name.span.stop⟩⟩
  | ancestor {t opening closing : Token} {tokens : List Token} {ps : List Param} :
      t.kind = .ancestor → opening.kind = .openBracket → IsParams tokens ps →
      closing.kind = .closeBracket →
      IsFragment (t :: opening :: (tokens ++ [closing]))
        ⟨.ancestor ps, ⟨t.span.start, closing.span.stop⟩⟩

/-- Fragments with single slashes between them, at least one. -/
inductive IsFragments : List Token → List Fragment → Prop where
  | one {tokens : List Token} {f : Fragment} : IsFragment tokens f → IsFragments tokens [f]
  | more {tokens rest : List Token} {slash : Token} {f : Fragment} {fs : List Fragment} :
      IsFragment tokens f → slash.kind = .slash → IsFragments rest fs →
      IsFragments (tokens ++ slash :: rest) (f :: fs)

inductive IsPath : List Token → List Fragment → Prop where
  | empty : IsPath [] []
  | fragments {tokens : List Token} {fs : List Fragment} : IsFragments tokens fs → IsPath tokens fs

/-- Where nothing is read, a fault is reported. -/
def Reading.Reports {α : Type} (r : Reading α) : Prop := r.result? = none → r.problems ≠ []

@[simp] theorem Reading.reports_some {α : Type} (a : α) (problems : List Problem)
    (rest : List Token) : Reading.Reports ⟨some a, problems, rest⟩ := nofun

@[simp] theorem Reading.reports_cons {α : Type} (result? : Option α) (p : Problem)
    (problems : List Problem) (rest : List Token) :
    Reading.Reports ⟨result?, p :: problems, rest⟩ := fun _ => List.cons_ne_nil _ _

/-! ## Parameters -/

namespace Grammar

theorem ident?_eq_some_iff {tokens rest : List Token} {i : Ident} :
    ident? tokens = some (i, rest) ↔ ∃ t, tokens = t :: rest ∧ t.kind = .ident ∧ t.ident = i := by
  cases tokens with
  | nil => simp [ident?]
  | cons t ts =>
    simp only [ident?, Option.ite_none_right_eq_some, Option.some.injEq, Prod.mk.injEq,
      List.cons.injEq]
    constructor
    · rintro ⟨hkind, hi, hrest⟩
      exact ⟨t, ⟨rfl, hrest⟩, hkind, hi⟩
    · rintro ⟨t', ⟨rfl, hrest⟩, hkind, hi⟩
      exact ⟨hkind, hi, hrest⟩

theorem keyProblems_eq_nil_iff {p : Param} :
    keyProblems p = [] ↔ p.key.text ∈ ["type", "oftype", "name"] := by
  unfold keyProblems Param.filter? Filter.ofKey?
  split_ifs <;> simp_all

/-- A parameter is read to its end, and no further. -/
theorem param_eq_ok_iff {m : Missing} {tokens rest : List Token} {p : Param} :
    (param m tokens = .ok (p, rest) ∧ keyProblems p = []) ↔
      ∃ front, tokens = front ++ rest ∧ IsParam front p := by
  rw [keyProblems_eq_nil_iff]
  constructor
  · rintro ⟨h, hknown⟩
    unfold param at h
    split at h
    · cases h
    · rename_i key afterKey hkey
      obtain ⟨k, hdrop, hk, rfl⟩ := ident?_eq_some_iff.1 hkey
      split at h
      · cases h
      · rename_i eq afterEq
        split at h
        · rename_i heq
          split at h
          · cases h
          · rename_i value rest' hvalue
            obtain ⟨v, rfl, hv, rfl⟩ := ident?_eq_some_iff.1 hvalue
            cases h
            have hpair : IsPair k eq v := ⟨hk, hknown, heq, hv⟩
            cases tokens with
            | nil => cases hdrop
            | cons t ts =>
              simp only [dropAt] at hdrop
              split at hdrop
              · rename_i hsign
                subst hdrop
                exact ⟨[t, k, eq, v], rfl, .sign hsign hpair⟩
              · cases hdrop
                exact ⟨[k, eq, v], rfl, .plain hpair⟩
        · cases h
  · rintro ⟨front, rfl, hp⟩
    cases hp with
    | plain hpair =>
      obtain ⟨hk, hknown, heq, hv⟩ := hpair
      exact ⟨by simp [param, dropAt, ident?, hk, heq, hv, Missing.span, Token.ident], hknown⟩
    | sign hsign hpair =>
      obtain ⟨hk, hknown, heq, hv⟩ := hpair
      exact ⟨by simp [param, dropAt, ident?, hsign, hk, heq, hv, Missing.span, Token.ident], hknown⟩

/-- Behind a parameter stands a comma or the closing bracket. -/
theorem params_of_param {m : Missing} {opening : Span} {tokens rest : List Token} {t : Token}
    {p : Param} (h : param m tokens = .ok (p, t :: rest)) :
    params m opening tokens =
      if t.kind = .comma then
        ⟨(params m opening rest).result?.map (p :: ·),
          keyProblems p ++ (params m opening rest).problems, (params m opening rest).rest⟩
      else if t.kind = .closeBracket then ⟨some [p], keyProblems p, rest⟩
      else ⟨none, keyProblems p ++ [⟨.unclosedBracket, opening⟩], []⟩ := by
  rw [params]
  split
  · rename_i problem herror
    rw [h] at herror
    cases herror
  · rename_i p' hend
    rw [h] at hend
    cases hend
  · rename_i p' t' rest' hparam
    rw [h] at hparam
    cases hparam
    rfl

/-- A bracket is read without a fault just when it holds parameters and is closed. -/
theorem params_eq_iff {m : Missing} {opening : Span} {tokens rest : List Token} {ps : List Param} :
    params m opening tokens = ⟨some ps, [], rest⟩ ↔
      ∃ inner closing, tokens = inner ++ closing :: rest ∧ IsParams inner ps ∧
        closing.kind = .closeBracket := by
  constructor
  · intro h
    fun_induction params m opening tokens generalizing ps
    case case1 tokens problem hparam => cases h
    case case2 tokens p hparam => simp at h
    case case3 tokens p t rest' hparam hcomma more ih =>
      simp only [Reading.mk.injEq, Option.map_eq_some_iff, List.append_eq_nil_iff] at h
      obtain ⟨⟨ps', hps', rfl⟩, ⟨hkey, hproblems⟩, hrest⟩ := h
      obtain ⟨front, rfl, hp⟩ := param_eq_ok_iff.1 ⟨hparam, hkey⟩
      obtain ⟨inner, closing, rfl, his, hclosing⟩ := ih (by rw [← hps', ← hproblems, ← hrest])
      exact ⟨front ++ t :: inner, closing, by simp, .more hp hcomma his, hclosing⟩
    case case4 tokens p t rest' hparam hcomma hclose =>
      simp only [Reading.mk.injEq, Option.some.injEq] at h
      obtain ⟨rfl, hkey, rfl⟩ := h
      obtain ⟨front, rfl, hp⟩ := param_eq_ok_iff.1 ⟨hparam, hkey⟩
      exact ⟨front, t, rfl, .one hp, hclose⟩
    case case5 tokens p t rest' hparam hcomma hclose => simp at h
  · rintro ⟨inner, closing, rfl, his, hclosing⟩
    induction his with
    | @one front p hp =>
      obtain ⟨hparam, hkey⟩ := (param_eq_ok_iff (m := m)).2 ⟨front, rfl, hp⟩
      rw [params_of_param hparam, hclosing, hkey]
      rfl
    | @more front later comma p ps hp hcomma his ih =>
      rw [List.append_assoc, List.cons_append]
      obtain ⟨hparam, hkey⟩ := (param_eq_ok_iff (m := m)).2 ⟨front, rfl, hp⟩
      rw [params_of_param hparam, hcomma, hkey, ih]
      rfl

theorem params_reports (m : Missing) (opening : Span) (tokens : List Token) :
    (params m opening tokens).Reports := by
  fun_induction params m opening tokens
  case case1 tokens problem hparam => simp
  case case2 tokens p hparam => simp [Reading.Reports]
  case case3 tokens p t rest hparam hcomma more ih =>
    intro hnone hproblems
    exact ih (by simpa using hnone) (List.append_eq_nil_iff.1 hproblems).2
  case case4 tokens p t rest hparam hcomma hclose => simp
  case case5 tokens p t rest hparam hcomma hclose => simp [Reading.Reports]

/-! ## Fragments -/

theorem consumedEnd_closing (start : Nat) (inner : List Token) (closing : Token) :
    consumedEnd start (inner ++ [closing]) [] = closing.span.stop := by
  simp [consumedEnd, List.take_of_length_le]

theorem ancestor_eq_iff {m : Missing} {t opening : Token} {rest : List Token} {f : Fragment} :
    ancestor m t (opening :: rest) = ⟨some f, [], []⟩ ↔
      ∃ inner closing ps, rest = inner ++ [closing] ∧
        opening.kind = .openBracket ∧ IsParams inner ps ∧ closing.kind = .closeBracket ∧
        f = ⟨.ancestor ps, ⟨t.span.start, closing.span.stop⟩⟩ := by
  simp only [ancestor]
  split
  · rename_i hopening
    simp only [Reading.mk.injEq, Option.map_eq_some_iff]
    constructor
    · rintro ⟨⟨ps, hps, rfl⟩, hproblems, hrest⟩
      have hread : params m opening.span rest = ⟨some ps, [], []⟩ := by
        rw [← hps, ← hproblems, ← hrest]
      obtain ⟨inner, closing, rfl, his, hclosing⟩ := params_eq_iff.1 hread
      exact ⟨inner, closing, ps, rfl, hopening, his, hclosing, by rw [hrest, consumedEnd_closing]⟩
    · rintro ⟨inner, closing, ps, rfl, -, his, hclosing, rfl⟩
      rw [params_eq_iff.2 ⟨inner, closing, rfl, his, hclosing⟩, consumedEnd_closing]
      exact ⟨⟨ps, rfl, rfl⟩, rfl, rfl⟩
  · rename_i hopening
    refine iff_of_false (by simp) ?_
    rintro ⟨inner, closing, ps, -, hbracket, -⟩
    exact hopening hbracket

theorem sibling_eq_iff {t : Token} {rest : List Token} {f : Fragment} :
    sibling t rest = ⟨some f, [], []⟩ ↔
      ∃ dash name, rest = [dash, name] ∧ dash.kind = .minus ∧ name.kind = .ident ∧
        f = ⟨.sibling name.ident, ⟨t.span.start, name.span.stop⟩⟩ := by
  constructor
  · intro h
    unfold sibling at h
    split at h
    · rename_i dash rest
      split at h
      · rename_i hdash
        split at h
        · rename_i i rest' hname
          obtain ⟨name, rfl, hkind, rfl⟩ := ident?_eq_some_iff.1 hname
          cases h
          exact ⟨dash, name, rfl, hdash, hkind, rfl⟩
        · cases h
      · cases h
    · cases h
  · rintro ⟨dash, name, rfl, hdash, hname, rfl⟩
    simp [sibling, hdash, ident?, hname, Token.ident]

/-- A fragment is read without a fault, and nothing behind it, just when it is one. -/
theorem fragment_eq_iff {m : Missing} {t : Token} {rest : List Token} {f : Fragment} :
    fragment m t rest = ⟨some f, [], []⟩ ↔ IsFragment (t :: rest) f := by
  constructor
  · intro h
    unfold fragment at h
    split at h
    case h_1 hkind =>
      cases h
      exact .child hkind
    case h_2 hkind =>
      cases h
      exact .handle hkind
    case h_3 hkind | h_4 hkind | h_5 hkind | h_6 hkind =>
      cases h
      exact .word (by rw [hkind]; rfl)
    case h_7 hkind =>
      obtain ⟨dash, name, rfl, hdash, hname, rfl⟩ := sibling_eq_iff.1 h
      exact .sibling hkind hdash hname
    case h_8 hkind =>
      cases rest with
      | nil =>
        cases h
        exact .word (by rw [hkind]; rfl)
      | cons opening rest =>
        obtain ⟨inner, closing, ps, rfl, hopening, his, hclosing, rfl⟩ := ancestor_eq_iff.1 h
        exact .ancestor hkind hopening his hclosing
    case h_9 => cases h
    case h_10 => cases h
  · intro h
    cases h with
    | child hkind => simp [fragment, hkind, Token.ident]
    | handle hkind => simp [fragment, hkind, Token.handle]
    | @word t step hstep =>
      cases hkind : t.kind <;> rw [hkind] at hstep <;> cases hstep <;>
        simp [fragment, hkind, ancestor]
    | @sibling t dash name hkind hdash hname =>
      simpa [fragment, hkind] using sibling_eq_iff.2 ⟨dash, name, rfl, hdash, hname, rfl⟩
    | @ancestor t opening closing inner ps hkind hopening his hclosing =>
      simpa [fragment, hkind] using
        ancestor_eq_iff.2 ⟨inner, closing, ps, rfl, hopening, his, hclosing, rfl⟩

theorem sibling_reports (t : Token) (rest : List Token) : (sibling t rest).Reports := by
  unfold sibling
  repeat' split
  all_goals simp

theorem ancestor_reports (m : Missing) (t : Token) (rest : List Token) :
    (ancestor m t rest).Reports := by
  unfold ancestor
  split
  · simp
  · split
    · intro hnone
      exact params_reports _ _ _ (Option.map_eq_none_iff.1 hnone)
    · simp

theorem fragment_reports (m : Missing) (t : Token) (rest : List Token) :
    (fragment m t rest).Reports := by
  unfold fragment
  split
  case h_7 => exact sibling_reports t rest
  case h_8 => exact ancestor_reports m t rest
  all_goals simp

/-! ## Segments -/

/-- A segment that is one fragment and nothing else. -/
def Segment.sound (f : Fragment) : Segment := ⟨some f, []⟩

theorem segment_eq_sound_iff {m : Missing} {t : Token} {rest : List Token} {f : Fragment} :
    segment m t rest = .sound f ↔ IsFragment (t :: rest) f := by
  rw [← fragment_eq_iff (m := m)]
  unfold segment
  rcases fragment m t rest with ⟨_ | g, problems, _ | ⟨extra, behind⟩⟩ <;>
    simp [Segment.sound]

/-- Where there is no fault, there is one fragment and nothing else. -/
def Segment.Reports (s : Segment) : Prop := s.problems = [] → ∃ f, s = .sound f

@[simp] theorem Segment.reports_cons (fragment? : Option Fragment) (p : Problem)
    (problems : List Problem) : Segment.Reports ⟨fragment?, p :: problems⟩ := nofun

theorem segment_reports (m : Missing) (t : Token) (rest : List Token) :
    (segment m t rest).Reports := by
  intro h
  unfold segment at h ⊢
  dsimp only at h ⊢
  split at h
  · simp at h
  · rename_i f hresult hrest
    exact ⟨f, congrArg (Segment.mk (some f)) h⟩
  · rename_i hresult
    exact absurd h (fragment_reports m t rest hresult)

theorem not_isFragment_nil (f : Fragment) : ¬ IsFragment [] f := nofun

theorem segmentBefore_eq_sound_iff {m : Missing} {slash : Token} {tokens : List Token}
    {f : Fragment} : segmentBefore m tokens slash = .sound f ↔ IsFragment tokens f := by
  cases tokens with
  | nil => exact iff_of_false nofun (not_isFragment_nil f)
  | cons t rest => exact segment_eq_sound_iff

theorem segmentBefore_reports (m : Missing) (tokens : List Token) (slash : Token) :
    (segmentBefore m tokens slash).Reports := by
  cases tokens with
  | nil => simp [segmentBefore]
  | cons t rest => exact segment_reports m t rest

theorem laterSegments_reports (m : Missing) (later : List (Token × List Token)) :
    ∀ s ∈ laterSegments m later, s.Reports := by
  fun_induction laterSegments m later with
  | case1 => simp
  | case2 slash => simp
  | case3 slash t rest => simp [segment_reports]
  | case4 slash tokens next more later ih =>
    rintro s (_ | ⟨_, hs⟩)
    · exact segmentBefore_reports _ _ _
    · exact ih s hs

theorem pathSegments_reports (m : Missing) (tokens : List Token) :
    ∀ s ∈ pathSegments m tokens, s.Reports := by
  unfold pathSegments
  dsimp only
  split
  · split
    · simp
    · simp [segment_reports]
  · rintro s (_ | ⟨_, hs⟩)
    · exact segmentBefore_reports _ _ _
    · exact laterSegments_reports _ _ s hs

/-- The pieces of a path between its slashes. -/
def pieces (tokens : List Token) : List (List Token) :=
  (segments tokens).1 :: (segments tokens).2.map (·.2)

theorem laterSegments_eq_iff {m : Missing} {later : List (Token × List Token)}
    {fs : List Fragment} :
    laterSegments m later = fs.map .sound ↔ List.Forall₂ IsFragment (later.map (·.2)) fs := by
  fun_induction laterSegments m later generalizing fs with
  | case1 => cases fs <;> simp
  | case2 slash =>
    cases fs with
    | nil => simp
    | cons f fs => simp [Segment.sound, not_isFragment_nil]
  | case3 slash t rest =>
    cases fs with
    | nil => simp
    | cons f fs => simp [segment_eq_sound_iff, eq_comm (a := ([] : List Segment))]
  | case4 slash tokens next more later ih =>
    cases fs with
    | nil => simp
    | cons f fs => simp [segmentBefore_eq_sound_iff, ih]

theorem pathSegments_eq_iff {m : Missing} {t : Token} {rest : List Token} {fs : List Fragment} :
    pathSegments m (t :: rest) = fs.map .sound ↔
      List.Forall₂ IsFragment (pieces (t :: rest)) fs := by
  unfold pathSegments pieces
  dsimp only
  split
  · rename_i hlater
    rw [hlater]
    split
    · -- without a slash, the first piece is all of the tokens
      rename_i hfirst
      simp only [segments] at hfirst hlater
      split at hlater
      · cases hlater
      · rename_i hkind
        rw [if_neg hkind] at hfirst
        cases hfirst
    · rename_i hfirst
      rw [hfirst]
      cases fs with
      | nil => simp
      | cons f fs => simp [segment_eq_sound_iff, eq_comm (a := ([] : List Segment))]
  · rename_i slash more later hlater
    rw [hlater]
    cases fs with
    | nil => simp
    | cons f fs => simp [segmentBefore_eq_sound_iff, laterSegments_eq_iff]

/-! ## Derivations -/

end Grammar

open Grammar

/-- The tokens of a parameter are known, and separate neither fragments nor a path and its property. -/
theorem IsParam.kind_ne {tokens : List Token} {p : Param} (h : IsParam tokens p) :
    ∀ t ∈ tokens, t.kind ≠ .slash ∧ t.kind ≠ .dot ∧ t.kind ≠ .unknown := by
  cases h with
  | plain hpair =>
    obtain ⟨hk, -, heq, hv⟩ := hpair
    simp [hk, heq, hv]
  | sign hsign hpair =>
    obtain ⟨hk, -, heq, hv⟩ := hpair
    simp [hsign, hk, heq, hv]

theorem IsParams.kind_ne {tokens : List Token} {ps : List Param} (h : IsParams tokens ps) :
    ∀ t ∈ tokens, t.kind ≠ .slash ∧ t.kind ≠ .dot ∧ t.kind ≠ .unknown := by
  induction h with
  | one hp => exact hp.kind_ne
  | more hp hcomma his ih =>
    intro t ht
    rcases List.mem_append.1 ht with hfront | hrest
    · exact hp.kind_ne t hfront
    · rcases List.mem_cons.1 hrest with rfl | hrest
      · simp [hcomma]
      · exact ih t hrest

theorem IsFragment.kind_ne {tokens : List Token} {f : Fragment} (h : IsFragment tokens f) :
    ∀ t ∈ tokens, t.kind ≠ .slash ∧ t.kind ≠ .dot ∧ t.kind ≠ .unknown := by
  cases h with
  | child hkind => simp [hkind]
  | handle hkind => simp [hkind]
  | @word t step hstep =>
    intro t' ht
    rw [List.mem_singleton.1 ht]
    refine ⟨?_, ?_, ?_⟩ <;>
      · intro hkind
        rw [hkind] at hstep
        cases hstep
  | sibling hkind hdash hname => simp [hkind, hdash, hname]
  | ancestor hkind hopening his hclosing =>
    have hinner := his.kind_ne
    simp only [List.mem_cons, List.mem_append, List.not_mem_nil, or_false]
    rintro t (rfl | rfl | ht | rfl)
    · simp [hkind]
    · simp [hopening]
    · exact hinner t ht
    · simp [hclosing]

theorem IsFragment.not_slash {tokens : List Token} {f : Fragment} (h : IsFragment tokens f) :
    ∀ t ∈ tokens, t.kind ≠ .slash := fun t ht => (h.kind_ne t ht).1

theorem segments_of_not_slash {tokens : List Token} (h : ∀ t ∈ tokens, t.kind ≠ .slash) :
    segments tokens = (tokens, []) := by
  induction tokens with
  | nil => rfl
  | cons t rest ih =>
    rw [segments, ih fun t' ht => h t' (List.mem_cons_of_mem _ ht), if_neg (h t List.mem_cons_self)]

theorem segments_append {front rest : List Token} {slash : Token} (hslash : slash.kind = .slash)
    (h : ∀ t ∈ front, t.kind ≠ .slash) :
    segments (front ++ slash :: rest) =
      (front, (slash, (segments rest).1) :: (segments rest).2) := by
  induction front with
  | nil => rw [List.nil_append, segments, if_pos hslash]
  | cons t front ih =>
    rw [List.cons_append, segments, ih fun t' ht => h t' (List.mem_cons_of_mem _ ht),
      if_neg (h t List.mem_cons_self)]

theorem IsFragments.forall₂ {tokens : List Token} {fs : List Fragment} (h : IsFragments tokens fs) :
    List.Forall₂ IsFragment (pieces tokens) fs := by
  induction h with
  | one hf =>
    rw [pieces, segments_of_not_slash hf.not_slash]
    exact .cons hf .nil
  | more hf hslash _ ih =>
    rw [pieces, segments_append hslash hf.not_slash]
    exact .cons hf ih

/-- The tokens that stand before the first piece belong to it. -/
theorem IsFragments.of_forall₂ {front tokens : List Token} {fs : List Fragment}
    (h : List.Forall₂ IsFragment
      ((front ++ (segments tokens).1) :: (segments tokens).2.map (·.2)) fs) :
    IsFragments (front ++ tokens) fs := by
  induction tokens generalizing front fs with
  | nil =>
    obtain _ | ⟨hf, hfs⟩ := h
    cases hfs
    exact .one hf
  | cons t rest ih =>
    simp only [segments] at h
    split at h
    · rename_i hslash
      obtain _ | ⟨hf, hfs⟩ := h
      rw [List.append_nil] at hf
      exact .more hf hslash (@ih [] _ hfs)
    · have hrest := @ih (front ++ [t]) fs (by simpa using h)
      simpa using hrest

theorem isFragments_iff {tokens : List Token} {fs : List Fragment} :
    IsFragments tokens fs ↔ List.Forall₂ IsFragment (pieces tokens) fs :=
  ⟨IsFragments.forall₂, @IsFragments.of_forall₂ [] tokens fs⟩

theorem isPath_iff {m : Missing} {tokens : List Token} {fs : List Fragment} :
    IsPath tokens fs ↔ pathSegments m tokens = fs.map .sound := by
  cases tokens with
  | nil =>
    have hempty : pathSegments m [] = [] := rfl
    rw [hempty, eq_comm, List.map_eq_nil_iff]
    constructor
    · intro h
      cases h with
      | empty => rfl
      | fragments h =>
        obtain _ | ⟨hf, -⟩ := h.forall₂
        exact absurd hf (not_isFragment_nil _)
    · rintro rfl
      exact .empty
  | cons t rest =>
    rw [pathSegments_eq_iff, ← isFragments_iff]
    constructor
    · intro h
      cases h with
      | fragments h => exact h
    · exact .fragments

/-- Segments that report every fault are without one just when they are fragments. -/
theorem eq_map_sound_iff {segs : List Segment} {fs : List Fragment}
    (h : ∀ s ∈ segs, s.Reports) :
    segs = fs.map .sound ↔ segs.flatMap (·.problems) = [] ∧ segs.filterMap (·.fragment?) = fs := by
  constructor
  · rintro rfl
    simp [Segment.sound, List.flatMap_map, List.filterMap_map, Function.comp_def]
  · rintro ⟨hproblems, rfl⟩
    induction segs with
    | nil => rfl
    | cons s segs ih =>
      obtain ⟨hs, hrest⟩ := List.append_eq_nil_iff.1 hproblems
      obtain ⟨f, rfl⟩ := h s List.mem_cons_self hs
      exact congrArg (Segment.sound f :: ·) (ih (fun s' hs => h s' (List.mem_cons_of_mem _ hs)) hrest)

/-- Tokens are read without a fault just when the grammar derives fragments from them, which are those
that are read. -/
theorem isPath_iff_path {m : Missing} {tokens : List Token} {fs : List Fragment} :
    IsPath tokens fs ↔ (path m tokens).problems = [] ∧ (path m tokens).fragments = fs := by
  rw [isPath_iff (m := m), eq_map_sound_iff (pathSegments_reports m tokens)]
  rfl

/-- A text is read without a fault just when the grammar derives its tokens, and then the fragments
are those that it derives. -/
theorem Path.ofText_exact (text : List Char) :
    ((Path.ofText text).problems = [] ↔ ∃ fs, IsPath (Token.tokens text) fs) ∧
      ∀ fs, IsPath (Token.tokens text) fs ↔
        (Path.ofText text).problems = [] ∧ (Path.ofText text).fragments = fs := by
  have hderives : ∀ fs, IsPath (Token.tokens text) fs ↔
      (Path.ofText text).problems = [] ∧ (Path.ofText text).fragments = fs := fun fs => isPath_iff_path
  refine ⟨⟨fun h => ⟨_, (hderives _).2 ⟨h, rfl⟩⟩, ?_⟩, hderives⟩
  rintro ⟨fs, hfs⟩
  exact ((hderives fs).1 hfs).1

end Selector
end UILayout
