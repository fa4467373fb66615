import Mathlib.Data.List.TakeWhile
import UILayout.Proofs.Selector.Reading
import UILayout.Selector.Descent

/-!
# UILayout.Proofs.Selector.Descent

Recursive descent reads what the grammar reads. The tokens ahead of a cursor are those of a segment and,
behind it, a slash, the dot of a bind or nothing. No routine of the descent passes what stands behind the
segment, whatever is wrong with the segment, so that cutting the tokens at the slashes first makes no
difference, and neither does cutting off the target of a bind at the first dot.

* `Agrees`: a routine gives what the grammar reads, and stays in the segment.
* `fragments_eq`: the steps of a path, one segment after the other.
* `Path.byDescent_eq`, `Bind.byDescent_eq`: whole expressions.
-/

namespace UILayout
namespace Selector

open Text Grammar

namespace Cursor

variable {c : Cursor} {tokens rest used left : List Token} {t : Token} {fault : Fault}

/-- The cursor behind some tokens, with the faults that were found there. -/
def pass (c : Cursor) (used ahead : List Token) (problems : List Problem) : Cursor :=
  ⟨used.reverse ++ c.behind, ahead, c.length, c.problems ++ problems⟩

@[simp] theorem ahead_pass (c : Cursor) (used ahead : List Token) (problems : List Problem) :
    (c.pass used ahead problems).ahead = ahead := rfl

@[simp] theorem length_pass (c : Cursor) (used ahead : List Token) (problems : List Problem) :
    (c.pass used ahead problems).length = c.length := rfl

@[simp] theorem pass_pass (c : Cursor) (used used' ahead ahead' : List Token)
    (problems problems' : List Problem) :
    (c.pass used ahead problems).pass used' ahead' problems' =
      c.pass (used ++ used') ahead' (problems ++ problems') := by
  simp [pass]

theorem pass_nil (h : c.ahead = tokens) : c.pass [] tokens [] = c := by
  subst h
  simp [pass]

theorem report_eq (fault : Fault) (span : Span) (c : Cursor) :
    c.report fault span = c.pass [] c.ahead [⟨fault, span⟩] := rfl

theorem advance_eq (h : c.ahead = t :: rest) : c.advance = c.pass [t] rest [] := by
  simp [advance, h, pass]

@[simp] theorem report_pass (c : Cursor) (used ahead : List Token) (problems : List Problem)
    (fault : Fault) (span : Span) :
    (c.pass used ahead problems).report fault span = c.pass used ahead (problems ++ [⟨fault, span⟩]) := by
  simp [report, pass]

@[simp] theorem advance_pass (c : Cursor) (used ahead : List Token) (problems : List Problem) (t : Token) :
    (c.pass used (t :: ahead) problems).advance = c.pass (used ++ [t]) ahead problems := by
  simp [advance, pass]

@[simp] theorem lastStop_pass_concat (c : Cursor) (used : List Token) (t : Token) (ahead : List Token)
    (problems : List Problem) : (c.pass (used ++ [t]) ahead problems).lastStop = t.span.stop := by
  simp [lastStop, pass]

/-! ## Segments and what stands behind them -/

/-- Behind a segment stands a slash or a dot, if anything. -/
def Closes (rest : List Token) : Prop := ∀ t ∈ rest.head?, t.kind = .slash ∨ t.kind = .dot

/-- No other token stands behind a segment. -/
theorem Closes.kind_ne {kind : TokenKind} (h : Closes (t :: rest)) (hslash : kind ≠ .slash)
    (hdot : kind ≠ .dot) : t.kind ≠ kind := by
  rintro rfl
  exact (h t rfl).elim hslash hdot

/-- What a segment misses, it misses in front of this. -/
def missing (c : Cursor) (rest : List Token) : Missing := ⟨rest.head?, c.length⟩

@[simp] theorem missing_pass (c : Cursor) (used ahead : List Token) (problems : List Problem)
    (rest : List Token) : (c.pass used ahead problems).missing rest = c.missing rest := rfl

theorem isAt_eq {kind : TokenKind} (hkind : kind ≠ .slash ∧ kind ≠ .dot) (hrest : Closes rest)
    (tokens : List Token) (h : c.ahead = tokens ++ rest) :
    c.isAt kind = tokens.head?.any (·.kind = kind) := by
  cases tokens with
  | cons t tokens => simp [isAt, h]
  | nil =>
    cases rest with
    | nil => simp [isAt, h]
    | cons t rest => simp [isAt, h, hrest.kind_ne hkind.1 hkind.2]

theorem start_eq (h : c.ahead = tokens ++ rest) : c.start = ((c.missing rest).span tokens).start := by
  cases tokens with
  | cons t tokens => simp [start, h, Missing.span]
  | nil => cases rest <;> simp [start, h, Missing.span, missing, Span.point]

/-- A routine gives what the grammar reads of a segment. Behind a fault it may have stopped anywhere in
the segment, but no further. -/
inductive Agrees {α : Type} (c : Cursor) (tokens rest : List Token) :
    Reading α → Option α × Cursor → Prop where
  | some {a : α} {problems : List Problem} {used left : List Token} : tokens = used ++ left →
      Agrees c tokens rest ⟨.some a, problems, left⟩ (.some a, c.pass used (left ++ rest) problems)
  | none {problems : List Problem} {used left : List Token} : tokens = used ++ left →
      Agrees c tokens rest ⟨.none, problems, []⟩ (.none, c.pass used (left ++ rest) problems)

/-- What is read behind some tokens is read together with them. -/
theorem Agrees.behind {α β : Type} {r : Reading α} {out : Option α × Cursor} {problems : List Problem}
    (f : α → β) (htokens : tokens = used ++ left)
    (h : Agrees (c.pass used (left ++ rest) problems) left rest r out) :
    Agrees c tokens rest ⟨r.result?.map f, problems ++ r.problems, r.rest⟩ (out.1.map f, out.2) := by
  cases h with
  | some hleft =>
    rw [pass_pass]
    exact .some (by rw [htokens, hleft, List.append_assoc])
  | none hleft =>
    rw [pass_pass]
    exact .none (by rw [htokens, hleft, List.append_assoc])

/-! ## Parameters -/

theorem ident_of_some {i : Ident} (fault : Fault) (h : c.ahead = tokens ++ rest)
    (hi : ident? tokens = some (i, left)) :
    ∃ t, tokens = t :: left ∧ t.span = i.span ∧
      c.ident fault = (some i, c.pass [t] (left ++ rest) []) := by
  obtain ⟨t, rfl, hkind, rfl⟩ := ident?_eq_some_iff.1 hi
  refine ⟨t, rfl, rfl, ?_⟩
  rw [List.cons_append] at h
  simp [ident, h, hkind, advance_eq h, Token.ident]

theorem ident_of_none (hrest : Closes rest) (h : c.ahead = tokens ++ rest)
    (hi : ident? tokens = none) :
    c.ident fault =
      (none, c.pass [] (tokens ++ rest) [⟨fault, (c.missing rest).span tokens⟩]) := by
  cases tokens with
  | cons t tokens =>
    have hkind : t.kind ≠ .ident := by simpa [ident?] using hi
    simp [ident, h, hkind, report_eq, Missing.span]
  | nil =>
    cases rest with
    | nil => simp [ident, h, report_eq, Missing.span, missing]
    | cons t rest =>
      have hkind : t.kind ≠ .ident := hrest.kind_ne (by decide) (by decide)
      simp [ident, h, hkind, report_eq, Missing.span, missing]

theorem sign_eq (hrest : Closes rest) (h : c.ahead = tokens ++ rest) :
    ∃ sign, tokens = sign ++ dropAt tokens ∧
      (if c.isAt .atSign then c.advance else c) = c.pass sign (dropAt tokens ++ rest) [] := by
  rw [isAt_eq (by decide) hrest tokens h]
  cases tokens with
  | nil => exact ⟨[], rfl, (pass_nil h).symm⟩
  | cons t tokens =>
    by_cases hkind : t.kind = .atSign
    · rw [List.cons_append] at h
      exact ⟨[t], by simp [dropAt, hkind], by simp [dropAt, hkind, advance_eq h]⟩
    · have hdrop : dropAt (t :: tokens) = t :: tokens := by simp [dropAt, hkind]
      refine ⟨[], by rw [hdrop, List.nil_append], ?_⟩
      rw [hdrop, pass_nil h]
      simp [hkind]

theorem report_key (p : Param) (c : Cursor) :
    (if p.filter?.isNone then c.report (.unknownParam p.key.text) p.key.span else c) =
      c.pass [] c.ahead (keyProblems p) := by
  unfold keyProblems
  split
  · rfl
  · exact (pass_nil rfl).symm

/-- A parameter is read as by the grammar, up to where the grammar reads it or up to a fault. -/
theorem param_eq (hrest : Closes rest) (h : c.ahead = tokens ++ rest) :
    match Grammar.param (c.missing rest) tokens with
    | .error problem =>
      ∃ used left, tokens = used ++ left ∧ c.param = (none, c.pass used (left ++ rest) [problem])
    | .ok (p, left) =>
      ∃ used, tokens = used ++ left ∧ c.param = (some p, c.pass used (left ++ rest) (keyProblems p)) := by
  obtain ⟨sign, htokens, hsign⟩ := sign_eq hrest h
  unfold Cursor.param Grammar.param
  rw [hsign, start_eq h]
  dsimp only
  cases hkey : ident? (dropAt tokens) with
  | none =>
    rw [ident_of_none hrest rfl hkey, missing_pass, pass_pass, List.append_nil]
    exact ⟨_, _, htokens, rfl⟩
  | some found =>
    obtain ⟨key, afterKey⟩ := found
    obtain ⟨k, hdrop, hspan, hident⟩ := ident_of_some (c := c.pass sign (dropAt tokens ++ rest) [])
      .missingParamName rfl hkey
    have htokens : tokens = sign ++ [k] ++ afterKey := by
      rw [List.append_assoc, List.singleton_append, ← hdrop]
      exact htokens
    have hequals : (c.pass (sign ++ [k]) (afterKey ++ rest) []).isAt .equals = _ :=
      isAt_eq (by decide) hrest afterKey rfl
    rw [hident, pass_pass, List.append_nil]
    dsimp only
    rw [hequals, report_pass, lastStop_pass_concat, List.nil_append, hspan]
    cases afterKey with
    | nil => exact ⟨_, _, htokens, rfl⟩
    | cons eq afterEq =>
      by_cases heq : eq.kind = .equals
      · simp only [List.head?_cons, Option.any_some, heq, decide_true, if_true]
        rw [List.cons_append, advance_pass]
        have htokens : tokens = sign ++ [k] ++ [eq] ++ afterEq := by simpa using htokens
        cases hvalue : ident? afterEq with
        | none =>
          rw [ident_of_none (c := c.pass (sign ++ [k] ++ [eq]) (afterEq ++ rest) []) hrest rfl hvalue]
          rw [missing_pass, pass_pass, List.append_nil]
          exact ⟨_, _, htokens, rfl⟩
        | some found =>
          obtain ⟨value, left⟩ := found
          obtain ⟨v, rfl, -, hident⟩ := ident_of_some
            (c := c.pass (sign ++ [k] ++ [eq]) (afterEq ++ rest) []) .missingParamValue rfl hvalue
          have htokens : tokens = sign ++ [k] ++ [eq] ++ [v] ++ left := by simpa using htokens
          rw [hident, pass_pass, List.append_nil]
          dsimp only
          rw [report_key, pass_pass, List.append_nil]
          exact ⟨_, htokens, rfl⟩
      · simp only [List.head?_cons, Option.any_some, heq, decide_false, Bool.false_eq_true, if_false]
        exact ⟨_, _, htokens, rfl⟩

theorem params_of_none {next : Cursor} (h : c.param = (none, next)) (opening : Span) :
    c.params opening = (none, next) := by
  rw [Cursor.params]
  split
  · rename_i hnone
    rw [h] at hnone
    cases hnone
    rfl
  · rename_i hsome
    rw [h] at hsome
    cases hsome

theorem params_of_some {next : Cursor} {p : Param} (h : c.param = (some p, next)) (opening : Span) :
    c.params opening =
      if next.isAt .comma then
        ((next.advance.params opening).1.map (p :: ·), (next.advance.params opening).2)
      else if next.isAt .closeBracket then (some [p], next.advance)
      else (none, next.report .unclosedBracket opening) := by
  rw [Cursor.params]
  split
  · rename_i hnone
    rw [h] at hnone
    cases hnone
  · rename_i hsome
    rw [h] at hsome
    cases hsome
    rfl

theorem params_agrees {c : Cursor} {rest : List Token} {m : Missing} (hrest : Closes rest)
    (tokens : List Token) (h : c.ahead = tokens ++ rest) (hm : c.missing rest = m) (opening : Span) :
    Agrees c tokens rest (Grammar.params m opening tokens) (c.params opening) := by
  have hparam := param_eq hrest h
  rw [hm] at hparam
  rw [Grammar.params]
  split
  · rename_i problem hread
    rw [hread] at hparam
    obtain ⟨used, left, htokens, hc⟩ := hparam
    rw [params_of_none hc]
    exact .none htokens
  · rename_i p hread
    rw [hread] at hparam
    obtain ⟨used, htokens, hc⟩ := hparam
    rw [params_of_some hc, isAt_eq (by decide) hrest [] rfl, isAt_eq (by decide) hrest [] rfl,
      report_pass]
    exact .none htokens
  · rename_i p t left hread
    rw [hread] at hparam
    obtain ⟨used, htokens, hc⟩ := hparam
    have htokens' : tokens = used ++ [t] ++ left := by simpa using htokens
    rw [params_of_some hc, isAt_eq (by decide) hrest (t :: left) rfl,
      isAt_eq (by decide) hrest (t :: left) rfl, List.cons_append, advance_pass, report_pass]
    simp only [List.head?_cons, Option.any_some, decide_eq_true_eq]
    split
    · have hmore := params_agrees (c := c.pass (used ++ [t]) (left ++ rest) (keyProblems p)) hrest
        left rfl hm opening
      exact hmore.behind (p :: ·) htokens'
    · split
      · exact .some htokens'
      · exact .none htokens
  termination_by tokens.length
  decreasing_by
    rw [htokens', List.length_append, List.length_append, List.length_singleton]
    omega

/-! ## Fragments -/

theorem sibling_agrees (hrest : Closes rest) (h : c.ahead = tokens ++ rest) (keyword : Token) :
    Agrees c tokens rest (Grammar.sibling keyword tokens) (c.sibling keyword.span) := by
  unfold Grammar.sibling Cursor.sibling
  rw [isAt_eq (by decide) hrest tokens h]
  cases tokens with
  | nil =>
    rw [report_eq, h]
    exact .none rfl
  | cons dash tokens =>
    simp only [List.head?_cons, Option.any_some, decide_eq_true_eq]
    split
    · have hadvance : c.advance = c.pass [dash] (tokens ++ rest) [] := advance_eq h
      rw [hadvance, ahead_pass]
      have hmissing : Agrees (α := Fragment) c (dash :: tokens) rest
          ⟨none, [⟨.missingSiblingName, .point dash.span.stop⟩], []⟩
          (none, (c.pass [dash] (tokens ++ rest) []).report .missingSiblingName
            (.point dash.span.stop)) := by
        rw [report_pass]
        exact .none rfl
      cases tokens with
      | nil =>
        cases rest with
        | nil => exact hmissing
        | cons t rest =>
          have hkind : t.kind ≠ .ident := hrest.kind_ne (by decide) (by decide)
          simp only [List.nil_append, if_neg hkind]
          exact hmissing
      | cons name tokens =>
        by_cases hkind : name.kind = .ident
        · simp only [List.cons_append, ident?, if_pos hkind]
          rw [advance_pass]
          exact .some rfl
        · simp only [List.cons_append, ident?, if_neg hkind]
          exact hmissing
    · rw [report_eq, h]
      exact .none rfl

theorem lastStop_pass (hused : used ≠ []) (ahead : List Token) (problems : List Problem) (start : Nat) :
    (c.pass used ahead problems).lastStop = (used.getLast?.map (·.span.stop)).getD start := by
  obtain ⟨front, t, rfl⟩ := (List.eq_nil_or_concat' used).resolve_left hused
  simp

theorem ancestor_agrees {m : Missing} (hrest : Closes rest) (h : c.ahead = tokens ++ rest)
    (hm : c.missing rest = m) (keyword : Token) (hlast : c.lastStop = keyword.span.stop) :
    Agrees c tokens rest (Grammar.ancestor m keyword tokens) (c.ancestor keyword.span) := by
  have halone : Agrees (α := Fragment) c tokens rest ⟨some ⟨.ancestor [], keyword.span⟩, [], tokens⟩
      (some ⟨.ancestor [], ⟨keyword.span.start, c.lastStop⟩⟩, c) := by
    have hpass := pass_nil h
    rw [hlast]
    nth_rewrite 2 [← hpass]
    exact .some rfl
  unfold Grammar.ancestor Cursor.ancestor
  cases tokens with
  | nil =>
    cases rest with
    | nil =>
      rw [h]
      exact halone
    | cons t rest =>
      have hkind : t.kind ≠ .openBracket := hrest.kind_ne (by decide) (by decide)
      rw [h]
      simp only [List.nil_append, if_neg hkind]
      exact halone
  | cons t tokens =>
    rw [h]
    simp only [List.cons_append]
    split
    · have hadvance : c.advance = c.pass [t] (tokens ++ rest) [] := advance_eq h
      rw [hadvance]
      have hparams := params_agrees (c := c.pass [t] (tokens ++ rest) []) hrest tokens rfl hm t.span
      have hspec := (params_spec m t.span tokens).2
      generalize (c.pass [t] (tokens ++ rest) []).params t.span = out at hparams ⊢
      generalize Grammar.params m t.span tokens = r at hparams hspec ⊢
      cases hparams with
      | @some list problems used left htokens =>
        obtain ⟨used', htokens', hused, -⟩ := hspec list rfl
        obtain rfl : used' = used := List.append_cancel_right (htokens'.symm.trans htokens)
        have hstop := lastStop_pass (c := c.pass [t] (tokens ++ rest) []) hused (left ++ rest) problems
          keyword.span.stop
        rw [pass_pass] at hstop ⊢
        rw [htokens, consumedEnd_append, ← hstop]
        exact .some rfl
      | @none problems used left htokens =>
        rw [pass_pass, htokens]
        exact .none rfl
    · exact halone

theorem fragment_agrees {m : Missing} (hrest : Closes rest) (h : c.ahead = t :: (tokens ++ rest))
    (hm : c.missing rest = m) (hslash : t.kind ≠ .slash) :
    Agrees c (t :: tokens) rest (Grammar.fragment m t tokens) c.fragment := by
  have hadvance : c.advance = c.pass [t] (tokens ++ rest) [] := advance_eq h
  have hsibling := sibling_agrees (c := c.pass [t] (tokens ++ rest) []) hrest rfl t
  have hancestor := ancestor_agrees (c := c.pass [t] (tokens ++ rest) []) hrest rfl hm t rfl
  have hreport : ∀ problem, Agrees (α := Fragment) c (t :: tokens) rest ⟨none, [problem], []⟩
      (none, c.pass [] (t :: tokens ++ rest) [problem]) := fun problem => .none rfl
  unfold Grammar.fragment Cursor.fragment
  simp only [h, hadvance, report_eq]
  cases hkind : t.kind
  case slash => exact absurd hkind hslash
  case sibling => simpa using hsibling.behind id rfl
  case ancestor => simpa using hancestor.behind id rfl
  case ident | handle | this | parent | root | layer => exact .some rfl
  all_goals exact hreport _

/-! ## Segments -/

variable {inBind : Bool} {slash : Token}

/-- What ends a segment: a slash, or what ends the path. -/
def Ends (inBind : Bool) (t : Token) : Prop := t.kind = .slash ∨ inBind ∧ t.kind = .dot

theorem ends_iff : (c.atEnd inBind || c.isAt .slash) = true ↔ ∀ t ∈ c.ahead.head?, Ends inBind t := by
  rcases c with ⟨behind, _ | ⟨t, ahead⟩, length, problems⟩ <;> simp [atEnd, isAt, Ends, or_comm]

theorem closes_of_ends (h : ∀ t ∈ rest.head?, Ends inBind t) : Closes rest :=
  fun t ht => (h t ht).imp_right And.right

/-- After a fault the cursor goes on to the end of the segment, and not behind it. -/
theorem recover_eq (left : List Token) (hleft : ∀ t ∈ left, ¬ Ends inBind t)
    (hrest : ∀ t ∈ rest.head?, Ends inBind t) (h : c.ahead = left ++ rest) :
    c.recover inBind = c.pass left rest [] := by
  induction left generalizing c with
  | nil =>
    rw [recover, dif_pos (ends_iff.2 (by rwa [h]))]
    exact (pass_nil h).symm
  | cons t left ih =>
    obtain ⟨ht, hleft⟩ := List.forall_mem_cons.1 hleft
    have hends : ¬ (c.atEnd inBind || c.isAt .slash) = true := by
      rw [ends_iff, h]
      exact fun hall => ht (hall t rfl)
    rw [recover, dif_neg hends, advance_eq h, ih hleft rfl, pass_pass]
    rfl

/-- A segment is read as by the grammar, and passed. -/
theorem segment_eq {m : Missing} (hpiece : ∀ u ∈ t :: tokens, ¬ Ends inBind u)
    (hrest : ∀ u ∈ rest.head?, Ends inBind u) (h : c.ahead = t :: tokens ++ rest)
    (hm : c.missing rest = m) :
    c.segment inBind = ((Grammar.segment m t tokens).fragment?,
      c.pass (t :: tokens) rest (Grammar.segment m t tokens).problems) := by
  have hslash : t.kind ≠ .slash := fun hkind => hpiece t List.mem_cons_self (.inl hkind)
  have hread := fragment_agrees (closes_of_ends hrest) h hm hslash
  unfold Cursor.segment Grammar.segment
  generalize c.fragment = out at hread ⊢
  generalize Grammar.fragment m t tokens = r at hread ⊢
  cases hread with
  | @none problems used left htokens =>
    have hleft : ∀ u ∈ left, ¬ Ends inBind u := fun u hu =>
      hpiece u (htokens ▸ List.mem_append_right _ hu)
    dsimp only
    rw [recover_eq left hleft hrest rfl, pass_pass, htokens, List.append_nil]
  | @some f problems used left htokens =>
    cases left with
    | nil =>
      rw [List.append_nil] at htokens
      cases rest with
      | nil => rw [htokens]; rfl
      | cons next rest =>
        have hends : ((c.pass used (next :: rest) problems).atEnd inBind ||
            (c.pass used (next :: rest) problems).isAt .slash) = true := ends_iff.2 hrest
        simp only [List.nil_append, ahead_pass, if_pos hends, htokens]
    | cons extra left =>
      have hextra : ∀ u ∈ extra :: left, ¬ Ends inBind u := fun u hu =>
        hpiece u (htokens ▸ List.mem_append_right _ hu)
      have hends : ¬ ((c.pass used (extra :: left ++ rest) problems).atEnd inBind ||
          (c.pass used (extra :: left ++ rest) problems).isAt .slash) = true := by
        rw [ends_iff]
        exact fun hall => hextra extra List.mem_cons_self (hall extra rfl)
      simp only [List.cons_append, ahead_pass]
      rw [← List.cons_append, if_neg hends, report_eq, pass_pass, recover_eq _ hextra hrest rfl, pass_pass,
        List.append_nil, List.append_nil, htokens]

theorem segmentBefore_eq {m : Missing} (hpiece : ∀ u ∈ tokens, ¬ Ends inBind u)
    (hslash : slash.kind = .slash) (h : c.ahead = tokens ++ slash :: rest)
    (hm : c.missing (slash :: rest) = m) :
    c.segment inBind = ((segmentBefore m tokens slash).fragment?,
      c.pass tokens (slash :: rest) (segmentBefore m tokens slash).problems) := by
  have hends : ∀ u ∈ (slash :: rest).head?, Ends inBind u := by
    rintro u ⟨⟩
    exact .inl hslash
  cases tokens with
  | cons t tokens => exact segment_eq hpiece hends h hm
  | nil =>
    have hfragment : c.fragment =
        (none, c.pass [] (slash :: rest) [⟨.missingSelector, .point slash.span.start⟩]) := by
      simp [Cursor.fragment, h, hslash, report_eq]
    rw [Cursor.segment, hfragment]
    dsimp only
    rw [recover_eq [] nofun hends rfl, pass_pass]
    rfl

/-! ## Paths -/

theorem fragments_of_last {f? : Option Fragment} {next : Cursor} (h : c.segment inBind = (f?, next))
    (hnext : ∀ t ∈ next.ahead.head?, t.kind ≠ .slash) : c.fragments inBind = (f?.toList, next) := by
  rw [fragments]
  dsimp only
  split
  · rw [h]
  · rename_i slash rest hahead
    rw [h] at hahead
    rw [if_neg (hnext slash (by rw [hahead]; rfl)), h]

theorem fragments_of_slash {f? : Option Fragment} {next : Cursor} (h : c.segment inBind = (f?, next))
    (hahead : next.ahead = slash :: rest) (hslash : slash.kind = .slash) :
    c.fragments inBind =
      if next.advance.atEnd inBind then
        (f?.toList, next.advance.report .missingSelectorAfterSlash (.point slash.span.stop))
      else
        (f?.toList ++ (next.advance.fragments inBind).1, (next.advance.fragments inBind).2) := by
  rw [fragments]
  dsimp only
  split
  · rename_i hnil
    rw [h, hahead] at hnil
    cases hnil
  · rename_i slash' rest' hcons
    rw [h, hahead] at hcons
    cases hcons
    rw [if_pos hslash, h]

/-- What ends a path, where it does not end with the text. -/
def PathEnds (inBind : Bool) (after : List Token) : Prop := ∀ t ∈ after.head?, inBind ∧ t.kind = .dot

theorem atEnd_iff : c.atEnd inBind = true ↔ PathEnds inBind c.ahead := by
  rcases c with ⟨behind, _ | ⟨t, ahead⟩, length, problems⟩ <;> simp [atEnd, isAt, PathEnds]

theorem not_atEnd (hne : tokens ≠ []) (hdot : inBind → ∀ t ∈ tokens, t.kind ≠ .dot)
    (h : c.ahead = tokens ++ rest) : ¬ c.atEnd inBind = true := by
  obtain ⟨t, later, rfl⟩ := List.exists_cons_of_ne_nil hne
  rw [atEnd_iff, h]
  intro hall
  obtain ⟨hbind, hkind⟩ := hall t rfl
  exact hdot hbind t List.mem_cons_self hkind

/-- The steps of a path are read one segment after the other. -/
theorem fragments_eq {m : Missing} {after : List Token} (hne : tokens ≠ [])
    (hdot : inBind → ∀ t ∈ tokens, t.kind ≠ .dot) (hafter : PathEnds inBind after)
    (h : c.ahead = tokens ++ after) (hm : c.missing after = m) :
    c.fragments inBind = ((pathSegments m tokens).filterMap (·.fragment?),
      c.pass tokens after ((pathSegments m tokens).flatMap (·.problems))) := by
  have hends : ∀ t ∈ after.head?, Ends inBind t := fun t ht => .inr (hafter t ht)
  have hpiece : ∀ {piece : List Token}, NoSlash piece → (∀ t ∈ piece, t ∈ tokens) →
      ∀ t ∈ piece, ¬ Ends inBind t := by
    rintro piece hnone hsub t ht (hslash | ⟨hbind, hkind⟩)
    · exact hnone t ht hslash
    · exact hdot hbind t (hsub t ht) hkind
  rw [List.filterMap_eq_flatMap_toList]
  induction tokens using path_induct generalizing c with
  | nil => exact absurd rfl hne
  | @single t rest hnone =>
    rw [fragments_of_last (segment_eq (hpiece hnone fun _ ht => ht) hends h hm),
      pathSegments_of_noSlash hnone, List.flatMap_singleton, List.flatMap_singleton]
    intro t ht
    rw [(hafter t ht).2]
    decide
  | @last front slash hfront hslash =>
    rw [List.append_assoc, List.singleton_append] at h
    have hsegment := segmentBefore_eq (m := { m with next? := some slash })
      (hpiece hfront fun _ ht => List.mem_append_left _ ht) hslash h (by rw [← hm]; rfl)
    rw [fragments_of_slash hsegment rfl hslash, advance_pass, if_pos (atEnd_iff.2 hafter),
      pathSegments_append hslash hfront, if_pos rfl]
    simp [report_eq]
  | @more front slash rest hfront hslash hrest ih =>
    rw [List.append_assoc, List.cons_append] at h
    have hdot' : inBind → ∀ t ∈ rest, t.kind ≠ .dot := fun hbind t ht =>
      hdot hbind t (List.mem_append_right _ (List.mem_cons_of_mem _ ht))
    have hsegment := segmentBefore_eq (m := { m with next? := some slash })
      (hpiece hfront fun _ ht => List.mem_append_left _ ht) hslash h (by rw [← hm]; rfl)
    have hmore := ih (c := c.pass (front ++ [slash]) (rest ++ after)
        (segmentBefore { m with next? := some slash } front slash).problems) hrest hdot' rfl hm
        fun hnone hsub => hpiece hnone fun t ht =>
          List.mem_append_right _ (List.mem_cons_of_mem _ (hsub t ht))
    rw [fragments_of_slash hsegment rfl hslash, advance_pass, if_neg (not_atEnd hrest hdot' rfl), hmore,
      pathSegments_append hslash hfront, if_neg hrest]
    simp

/-- A path is read as by the grammar, whatever stands behind it. -/
theorem path_eq {m : Missing} (inBind : Bool) (tokens after : List Token)
    (hdot : inBind → ∀ t ∈ tokens, t.kind ≠ .dot) (hafter : PathEnds inBind after)
    (h : c.ahead = tokens ++ after) (hm : c.missing after = m) :
    c.path inBind = ({ Grammar.path m tokens with problems := [] },
      c.pass tokens after (Grammar.path m tokens).problems) := by
  have hstart : c.start = (m.span tokens).start := by rw [← hm, start_eq h]
  unfold Cursor.path
  by_cases hne : tokens = []
  · subst hne
    rw [if_pos (atEnd_iff.2 (by rwa [h])), hstart]
    nth_rewrite 1 [← pass_nil h]
    simp [Grammar.path, pathSegments, segments, Span.point, Span.cover]
  · rw [if_neg (not_atEnd hne hdot h), fragments_eq hne hdot hafter h hm, hstart]
    dsimp only
    rw [lastStop_pass hne _ _ (m.span tokens).start, Nat.max_comm]
    rfl

theorem trailing_eq (c : Cursor) : c.trailing.problems = c.problems ++ Grammar.trailing c.ahead := by
  rcases c with ⟨behind, _ | ⟨t, ahead⟩, length, problems⟩
  · simp [Cursor.trailing, Grammar.trailing]
  · simp [Cursor.trailing, Grammar.trailing, report, List.getLast?_cons]

theorem property_eq {after : List Token} (hafter : PathEnds true after) (h : c.ahead = after) :
    c.property.1 = (Grammar.property c.length after).1 ∧
      c.property.2.trailing.problems = c.problems ++ (Grammar.property c.length after).2 := by
  rw [trailing_eq]
  cases after with
  | nil =>
    simp [Cursor.property, Grammar.property, isAt, h, report, start, Span.point, Grammar.trailing]
  | cons dot rest =>
    have hdot : c.isAt .dot = true := by simp [isAt, h, (hafter dot rfl).2]
    unfold Cursor.property Grammar.property
    simp only [hdot, if_true, advance_eq h]
    cases rest with
    | nil => simp [ident?, report, start, Missing.span, Span.point, Grammar.trailing, pass]
    | cons name extra =>
      by_cases hname : name.kind = .ident
      · simp [ident?, hname, advance, pass]
      · simp [ident?, hname, report, start, Missing.span, pass]

end Cursor

open Cursor

theorem Path.byDescent_eq (text : List Char) : Path.byDescent text = Path.ofText text := by
  have hpath := path_eq (c := .ofText text) (m := ⟨none, byteLength text⟩) false (Token.tokens text) []
    nofun nofun (List.append_nil _).symm rfl
  rw [Path.byDescent, hpath]
  dsimp only
  rw [trailing_eq]
  simp [Grammar.trailing, Cursor.pass, Cursor.ofText, Path.ofText]

/-- A bind without a target is reported where the target is missing. -/
def unnamed (target : Path) (here : Nat) : List Problem :=
  if target.isEmpty && target.problems.isEmpty then
    [⟨.missingSelectorBeforeProperty, .point here⟩]
  else []

theorem report_unnamed (text : List Char) (before after : List Token) (target : Path) :
    (if ({ target with problems := [] } : Path).isEmpty &&
          ((Cursor.ofText text).pass before after target.problems).problems.isEmpty then
        ((Cursor.ofText text).pass before after target.problems).report .missingSelectorBeforeProperty
          (.point ((Cursor.ofText text).pass before after target.problems).start)
      else (Cursor.ofText text).pass before after target.problems) =
      (Cursor.ofText text).pass before after
        (target.problems ++ unnamed target ((Missing.mk none (byteLength text)).span after).start) := by
  have hstart : ((Cursor.ofText text).pass before after target.problems).start =
      ((Missing.mk none (byteLength text)).span after).start := by
    cases after <;> rfl
  rw [hstart, report_eq, pass_pass, List.append_nil]
  unfold unnamed
  by_cases h : (target.isEmpty && target.problems.isEmpty) = true
  · exact (if_pos h).trans (by rw [if_pos h]; rfl)
  · exact (if_neg h).trans (by rw [if_neg h, List.append_nil])

theorem Bind.byDescent_eq (text : List Char) : Bind.byDescent text = Bind.ofText text := by
  have hends : PathEnds true ((Token.tokens text).dropWhile (·.kind ≠ .dot)) := by
    intro t ht
    have hdot := List.head?_dropWhile_not (·.kind ≠ .dot) (Token.tokens text)
    rw [ht] at hdot
    exact ⟨rfl, by simpa using hdot⟩
  have hpath := path_eq (c := .ofText text) true ((Token.tokens text).takeWhile (·.kind ≠ .dot)) _
    (fun _ t ht => by simpa using List.mem_takeWhile_imp ht) hends
    List.takeWhile_append_dropWhile.symm rfl
  unfold Bind.byDescent Bind.ofText
  rw [hpath]
  dsimp only
  generalize (Token.tokens text).takeWhile (·.kind ≠ .dot) = before
  generalize (Token.tokens text).dropWhile (·.kind ≠ .dot) = after at hends ⊢
  have hm : (Cursor.ofText text).missing after = ⟨after.head?, byteLength text⟩ := rfl
  rw [hm]
  generalize path ⟨after.head?, byteLength text⟩ before = target
  have hnamed := report_unnamed text before after target
  obtain ⟨hname, hproblems⟩ := property_eq (c := (Cursor.ofText text).pass before after
    (target.problems ++ unnamed target ((Missing.mk none (byteLength text)).span after).start)) hends rfl
  rw [length_pass] at hname hproblems
  rw [hnamed, hname, hproblems, Nat.max_comm]
  rfl

end Selector
end UILayout
