import UILayout.Proofs.Selector.Cut
import UILayout.Proofs.Selector.Descent

/-!
# UILayout.Proofs.Selector.Property

Property binds are a path, a dot and a name. No path has a dot among its tokens, so the first dot of a
bind that is read without a fault is the one behind its path; and what is read in front of it is what is
read of the text in front of it.

* `IsPath.not_dot`: a path holds no dot.
* `bind_eq`: reading a bind, by what stands in front of its first dot.
* `Bind.faultless_exact`: the binds that are read without a fault.
-/

namespace UILayout
namespace Selector

open Text Grammar

/-- A path may have these tokens: some text of theirs is read without a fault. -/
def Accepted (tokens : List Token) : Prop :=
  ∃ own, Token.tokens own = tokens ∧ (Path.ofText own).problems = []

/-- A path that is not empty, a dot and a name. -/
structure IsBind (tokens path : List Token) (dot name : Token) : Prop where
  tokens : tokens = path ++ [dot, name]
  ne_nil : path ≠ []
  path : Accepted path
  dot : dot.kind = .dot
  name : name.kind = .ident

variable {text : List Char} {m : Missing} {tokens path : List Token} {dot name : Token}
  {fs : List Fragment}

/-! ## Dots -/

theorem IsFragments.kind_ne (h : IsFragments tokens fs) :
    ∀ t ∈ tokens, t.kind ≠ .dot ∧ t.kind ≠ .unknown := by
  induction h with
  | one hf => exact fun t ht => (hf.kind_ne t ht).2
  | more hf hslash _ ih =>
    intro t ht
    rcases List.mem_append.1 ht with ht | ht
    · exact (hf.kind_ne t ht).2
    · rcases List.mem_cons.1 ht with rfl | ht
      · simp [hslash]
      · exact ih t ht

theorem IsPath.kind_ne (h : IsPath tokens fs) : ∀ t ∈ tokens, t.kind ≠ .dot ∧ t.kind ≠ .unknown := by
  cases h with
  | empty => exact nofun
  | fragments h => exact h.kind_ne

theorem IsPath.not_dot (h : IsPath tokens fs) : ∀ t ∈ tokens, t.kind ≠ .dot :=
  fun t ht => (h.kind_ne t ht).1

theorem IsPath.ne_nil (h : IsPath tokens fs) (hne : tokens ≠ []) : fs ≠ [] := by
  cases h with
  | empty => exact absurd rfl hne
  | fragments h => cases h <;> exact List.cons_ne_nil _ _

theorem eq_dot_of_munch {c : Char} {cs : List Char} (h : (Token.munch c cs).1 = .dot) : c = '.' := by
  unfold Token.munch at h
  split at h
  · cases h
  · split at h
    · cases h
    · split at h
      · split at h
        · cases h
        · unfold Token.kindOfWord at h
          split_ifs at h
      · unfold Token.kindOfMark at h
        split_ifs at h
        assumption

theorem Accepted.isPath (h : Accepted tokens) : ∃ fs, IsPath tokens fs := by
  obtain ⟨own, rfl, hproblems⟩ := h
  exact ⟨_, isPath_iff_path.2 ⟨hproblems, rfl⟩⟩

theorem IsPath.accepted (h : IsPath tokens fs) (hown : ∃ own, Token.tokens own = tokens) :
    Accepted tokens := by
  obtain ⟨own, rfl⟩ := hown
  exact ⟨own, rfl, (isPath_iff_path.1 h).1⟩

/-! ## The property -/

theorem trailing_eq_nil_iff : trailing tokens = [] ↔ tokens = [] := by
  cases tokens <;> simp [trailing]

theorem property_faultless_iff {length : Nat} :
    (property length tokens).2 = [] ↔ ∃ dot name, tokens = [dot, name] ∧ name.kind = .ident := by
  cases tokens with
  | nil => simp [property]
  | cons dot rest =>
    unfold property
    dsimp only
    cases hname : ident? rest with
    | none =>
      refine iff_of_false (List.cons_ne_nil _ _) ?_
      rintro ⟨_, name, hrest, hkind⟩
      cases hrest
      simp [ident?, hkind] at hname
    | some found =>
      obtain ⟨i, extra⟩ := found
      obtain ⟨name, rfl, hkind, rfl⟩ := ident?_eq_some_iff.1 hname
      simp [trailing_eq_nil_iff, hkind]

theorem property_of_ident {length : Nat} (h : name.kind = .ident) :
    property length [dot, name] = (some name.ident, []) := by
  simp [property, ident?, h, Token.ident, trailing]

/-! ## Binds -/

/-- What the target of a bind misses, it misses in front of what stands behind it. -/
def Bind.missing (text : List Char) : Missing :=
  ⟨((Token.tokens text).dropWhile (·.kind ≠ .dot)).head?, byteLength text⟩

theorem Bind.problems_eq_nil_iff (text : List Char) :
    (Bind.ofText text).problems = [] ↔
      (Grammar.path (missing text) ((Token.tokens text).takeWhile (·.kind ≠ .dot))).problems = [] ∧
        (Grammar.path (missing text) ((Token.tokens text).takeWhile (·.kind ≠ .dot))).fragments ≠ [] ∧
        (property (byteLength text) ((Token.tokens text).dropWhile (·.kind ≠ .dot))).2 = [] := by
  unfold Bind.ofText missing
  dsimp only
  generalize Grammar.path _ _ = target
  rw [List.append_eq_nil_iff, List.append_eq_nil_iff, and_assoc]
  refine and_congr_right fun hproblems => and_congr_left fun _ => ?_
  simp [hproblems, Path.isEmpty]

theorem cut_at_dot {rest : List Token} (hpath : ∀ t ∈ path, t.kind ≠ .dot) (hdot : dot.kind = .dot) :
    (path ++ dot :: rest).takeWhile (·.kind ≠ .dot) = path ∧
      (path ++ dot :: rest).dropWhile (·.kind ≠ .dot) = dot :: rest := by
  have hall : ∀ t ∈ path, decide (t.kind ≠ .dot) = true := fun t ht => decide_eq_true (hpath t ht)
  rw [List.takeWhile_append_of_pos hall, List.dropWhile_append_of_pos hall]
  simp [hdot]

/-- The tokens of a bind, cut at its first dot. -/
theorem IsBind.cut (h : IsBind (Token.tokens text) path dot name) :
    (∃ fs, IsPath path fs) ∧ (Token.tokens text).takeWhile (·.kind ≠ .dot) = path ∧
      (Token.tokens text).dropWhile (·.kind ≠ .dot) = [dot, name] := by
  obtain ⟨fs, hfs⟩ := h.path.isPath
  rw [h.tokens]
  exact ⟨⟨fs, hfs⟩, cut_at_dot hfs.not_dot h.dot⟩

theorem Bind.faultless_iff (text : List Char) : (Bind.ofText text).problems = [] ↔
    ∃ path dot name, IsBind (Token.tokens text) path dot name := by
  rw [Bind.problems_eq_nil_iff]
  constructor
  · rintro ⟨hproblems, hne, hproperty⟩
    obtain ⟨dot, name, hafter, hname⟩ := property_faultless_iff.1 hproperty
    have htokens : Token.tokens text = (Token.tokens text).takeWhile (·.kind ≠ .dot) ++ [dot, name] := by
      rw [← hafter, List.takeWhile_append_dropWhile]
    have hpath := isPath_iff_path.2 ⟨hproblems, rfl⟩
    have hdot := List.head?_dropWhile_not (·.kind ≠ .dot) (Token.tokens text)
    rw [hafter] at hdot
    obtain ⟨own, -, -, hown, -⟩ := Token.worded_split (htokens : Token.worded 0 text = _)
    refine ⟨_, dot, name, htokens, ?_, hpath.accepted ⟨own, hown⟩, by simpa using hdot, hname⟩
    intro hnil
    rw [hnil] at hne
    exact hne rfl
  · rintro ⟨path, dot, name, h⟩
    obtain ⟨⟨fs, hfs⟩, htake, hdrop⟩ := h.cut
    rw [htake, hdrop, property_of_ident h.name]
    obtain ⟨hproblems, hfragments⟩ := (isPath_iff_path (m := missing text)).1 hfs
    exact ⟨hproblems, hfragments ▸ hfs.ne_nil h.ne_nil, rfl⟩

/-- In front of the dot stands a text of the tokens in front of it. -/
theorem IsBind.before_dot (h : IsBind (Token.tokens text) path dot name) :
    ∃ before after, text = before ++ '.' :: after ∧ byteLength before = dot.span.start ∧
      Token.tokens before = path := by
  obtain ⟨before, c, after, rfl, hbefore, rfl⟩ := Token.worded_cut (h.tokens : Token.worded 0 text = _)
  obtain rfl : c = '.' := eq_dot_of_munch h.dot
  exact ⟨before, after, rfl, (Nat.zero_add _).symm, hbefore⟩

/-- A bind is read without a fault just when it is a path, a dot and a name, and then it has that name,
the fragments of the text in front of the dot, and reaches from its first token to its last. -/
theorem Bind.faultless_exact (text : List Char) :
    Bind.byDescent text = Bind.ofText text ∧
      ((Bind.ofText text).problems = [] ↔ ∃ path dot name, IsBind (Token.tokens text) path dot name) ∧
      ∀ path dot name, IsBind (Token.tokens text) path dot name →
        (Bind.ofText text).property? = some name.ident ∧
          (∃ before after, text = before ++ '.' :: after ∧ byteLength before = dot.span.start ∧
            (Bind.ofText text).target.fragments = (Path.ofText before).fragments) ∧
          ∃ first, path.head? = some first ∧
            (Bind.ofText text).span = ⟨first.span.start, name.span.stop⟩ := by
  refine ⟨Bind.byDescent_eq text, Bind.faultless_iff text, fun path dot name h => ?_⟩
  obtain ⟨⟨fs, hfs⟩, htake, hdrop⟩ := h.cut
  obtain ⟨before, after, htext, hstart, htokens⟩ := h.before_dot
  obtain ⟨first, rest, hfirst⟩ := List.exists_cons_of_ne_nil h.ne_nil
  unfold Bind.ofText
  dsimp only
  rw [htake, hdrop, property_of_ident h.name]
  refine ⟨rfl, ⟨before, after, htext, hstart, ?_⟩, first, by rw [hfirst]; rfl, ?_⟩
  · rw [Path.ofText, htokens, (isPath_iff_path.1 hfs).2, (isPath_iff_path.1 hfs).2]
  · have hsorted := Token.sorted_tokens text
    rw [h.tokens, hfirst] at hsorted
    have hordered := (hsorted.inside_to (u := name) (by simp)).ordered
    rw [hfirst]
    exact congrArg (Span.mk first.span.start) (Nat.max_eq_right hordered)

end Selector
end UILayout
