import Mathlib.Data.List.DropRight
import UILayout.Proofs.Selector.Exact
import UILayout.Proofs.Text.Parts

/-!
# UILayout.Proofs.Selector.Names

The texts of the fragments of a path. Reading passes over blanks, so that a path which is read without
a fault has for its fragments what stands between its slashes, without the blanks at the ends.

* `scanFrom_append_slash`: a slash always is a token of its own, so the tokens on both sides of it are
  read by themselves.
* `slice?_of_worded`: from the first token of a text to its last one, the text stands without the blanks
  at its ends.
* `Path.fragmentTexts_eq`: the texts of the fragments.
-/

namespace UILayout
namespace Selector

open Text

/-- A text without the blanks at its ends. -/
def trimBlanks (text : List Char) : List Char :=
  (text.dropWhile Token.isBlank).rdropWhile Token.isBlank

namespace Token

/-! ## Single tokens -/

theorem not_isBlank_of_isWord {c : Char} (h : isWord c) : ¬ isBlank c := by
  intro hb
  simp only [isBlank, Bool.or_eq_true, decide_eq_true_eq] at hb
  rcases hb with ((rfl | rfl) | rfl) | rfl <;> revert h <;> decide

theorem kindOfMark_ne_blank (c : Char) : kindOfMark c ≠ .blank := by
  unfold kindOfMark
  repeat' split
  all_goals simp

theorem kindOfWord_ne_blank (word : List Char) : kindOfWord word ≠ .blank := by
  unfold kindOfWord
  repeat' split
  all_goals simp

/-- A token of blanks holds nothing else, and all others hold none. -/
theorem munch_blank (c : Char) (cs : List Char) :
    ((munch c cs).1 = .blank ∧ ∀ d ∈ (munch c cs).2.1, isBlank d) ∨
      ((munch c cs).1 ≠ .blank ∧ ∀ d ∈ (munch c cs).2.1, ¬ isBlank d) := by
  unfold munch
  split
  · rename_i hc
    left
    refine ⟨rfl, fun d hd => ?_⟩
    rcases List.mem_cons.1 hd with rfl | hd
    · exact hc
    · exact List.mem_takeWhile_imp hd
  · rename_i hc
    right
    split
    · rename_i hword
      refine ⟨by simp, fun d hd => ?_⟩
      rcases List.mem_cons.1 hd with rfl | hd
      · exact hc
      · exact not_isBlank_of_isWord (List.mem_takeWhile_imp hd)
    · split
      · split
        · exact ⟨by simp, by simpa using hc⟩
        · rename_i w ws hword
          refine ⟨kindOfWord_ne_blank _, fun d hd => ?_⟩
          rcases List.mem_cons.1 hd with rfl | hd
          · exact hc
          · rw [← hword] at hd
            exact not_isBlank_of_isWord (List.mem_takeWhile_imp hd)
      · exact ⟨kindOfMark_ne_blank c, by simpa using hc⟩

theorem kindOfMark_eq_slash_iff (c : Char) : kindOfMark c = .slash ↔ c = '/' := by
  unfold kindOfMark
  split_ifs <;> simp_all

theorem kindOfWord_ne_slash (word : List Char) : kindOfWord word ≠ .slash := by
  unfold kindOfWord
  repeat' split
  all_goals simp

theorem munch_slash (cs : List Char) : munch '/' cs = (.slash, ['/'], cs) := rfl

theorem munch_ne_slash {c : Char} (hc : c ≠ '/') (cs : List Char) : (munch c cs).1 ≠ .slash := by
  unfold munch
  split
  · simp
  · split
    · simp
    · split
      · split
        · simp
        · exact kindOfWord_ne_slash _
      · rwa [Ne, kindOfMark_eq_slash_iff]

theorem takeWhile_append_slash {P : Char → Bool} (hP : P '/' = false) (cs rest : List Char) :
    (cs ++ '/' :: rest).takeWhile P = cs.takeWhile P ∧
      (cs ++ '/' :: rest).dropWhile P = cs.dropWhile P ++ '/' :: rest := by
  induction cs with
  | nil => simp [hP]
  | cons c cs ih =>
    by_cases hc : P c
    · simp [hc, ih]
    · simp [hc]

/-- A token ends where a slash stands. -/
theorem munch_append_slash (c : Char) (cs rest : List Char) :
    munch c (cs ++ '/' :: rest) =
      ((munch c cs).1, (munch c cs).2.1, (munch c cs).2.2 ++ '/' :: rest) := by
  obtain ⟨hblank, hblank'⟩ := @takeWhile_append_slash isBlank rfl cs rest
  obtain ⟨hword, hword'⟩ := @takeWhile_append_slash isWord rfl cs rest
  simp only [munch, hblank, hblank', hword, hword']
  split
  · rfl
  · split
    · rfl
    · split
      · split <;> rfl
      · rfl

/-! ## Tokens between slashes -/

theorem scanFrom_cons (pos : Nat) (c : Char) (cs : List Char) :
    scanFrom pos (c :: cs) =
      ⟨(munch c cs).1, String.ofList (munch c cs).2.1, ⟨pos, pos + byteLength (munch c cs).2.1⟩⟩ ::
        scanFrom (pos + byteLength (munch c cs).2.1) (munch c cs).2.2 := by
  rw [scanFrom]

/-- What a scan starts with: a token, cut off in front of what remains. -/
theorem scan_induct {P : Nat → List Char → Prop} (nil : ∀ pos, P pos [])
    (cons : ∀ pos c cs, P (pos + byteLength (munch c cs).2.1) (munch c cs).2.2 → P pos (c :: cs))
    (pos : Nat) (cs : List Char) : P pos cs := by
  fun_induction scanFrom pos cs with
  | case1 pos => exact nil pos
  | case2 pos c cs m stop ih => exact cons pos c cs ih

theorem mem_munch_rest {c d : Char} {cs : List Char} (h : d ∈ (munch c cs).2.2) : d ∈ c :: cs := by
  rw [← munch_append c cs]
  exact List.mem_append_right _ h

theorem kind_ne_slash {pos : Nat} {cs : List Char} (h : '/' ∉ cs) :
    ∀ t ∈ scanFrom pos cs, t.kind ≠ .slash := by
  induction pos, cs using scan_induct with
  | nil pos => simp [scanFrom]
  | cons pos c cs ih =>
    intro t ht
    rw [scanFrom_cons] at ht
    rcases List.mem_cons.1 ht with rfl | ht
    · exact munch_ne_slash (fun hc => h (hc ▸ List.mem_cons_self)) cs
    · exact ih (fun hmem => h (mem_munch_rest hmem)) t ht

theorem scanFrom_append_slash {pos : Nat} {cs rest : List Char} (h : '/' ∉ cs) :
    ∃ slash : Token, slash.kind = .slash ∧ scanFrom pos (cs ++ '/' :: rest) =
      scanFrom pos cs ++ slash :: scanFrom (pos + byteLength (cs ++ ['/'])) rest := by
  induction pos, cs using scan_induct with
  | nil pos =>
    rw [List.nil_append, scanFrom_cons, munch_slash, scanFrom]
    exact ⟨_, rfl, rfl⟩
  | cons pos c cs ih =>
    obtain ⟨slash, hslash, hscan⟩ := ih fun hmem => h (mem_munch_rest hmem)
    have hlength : pos + byteLength (munch c cs).2.1 + byteLength ((munch c cs).2.2 ++ ['/']) =
        pos + byteLength (c :: cs ++ ['/']) := by
      rw [← munch_append c cs]
      simp only [byteLength_append, Nat.add_assoc]
    refine ⟨slash, hslash, ?_⟩
    rw [List.cons_append, scanFrom_cons, munch_append_slash, scanFrom_cons]
    dsimp only
    rw [hscan, hlength]
    rfl

/-! ## The blanks at the ends -/

/-- The tokens of `cs` at `pos` that are not blank. -/
def worded (pos : Nat) (cs : List Char) : List Token :=
  (scanFrom pos cs).filter (·.kind ≠ .blank)

theorem worded_cons (pos : Nat) (c : Char) (cs : List Char) :
    worded pos (c :: cs) =
      (if (munch c cs).1 = .blank then []
        else [⟨(munch c cs).1, String.ofList (munch c cs).2.1,
          ⟨pos, pos + byteLength (munch c cs).2.1⟩⟩]) ++
        worded (pos + byteLength (munch c cs).2.1) (munch c cs).2.2 := by
  rw [worded, scanFrom_cons, List.filter_cons]
  by_cases h : (munch c cs).1 = .blank
  · simp [h, worded]
  · simp [h, worded]

theorem worded_eq_nil_iff {pos : Nat} {cs : List Char} :
    worded pos cs = [] ↔ ∀ c ∈ cs, isBlank c := by
  induction pos, cs using scan_induct with
  | nil pos => simp [worded, scanFrom]
  | cons pos c cs ih =>
    rw [worded_cons, List.append_eq_nil_iff, ih, ← munch_append c cs]
    rcases munch_blank c cs with ⟨hkind, hall⟩ | ⟨hkind, hnone⟩
    · simp only [hkind, if_true, true_and, List.mem_append]
      exact ⟨fun h d hd => hd.elim (hall d) (h d), fun h d hd => h d (.inr hd)⟩
    · rw [if_neg hkind]
      refine iff_of_false (by simp) fun h => ?_
      obtain ⟨d, hd⟩ := List.exists_mem_of_ne_nil _ (munch_ne_nil c cs)
      exact hnone d hd (h d (List.mem_append_left _ hd))

theorem start_of_head?_worded {pos : Nat} {cs : List Char} {t : Token}
    (h : (worded pos cs).head? = some t) :
    t.span.start = pos + byteLength (cs.takeWhile isBlank) := by
  induction pos, cs using scan_induct with
  | nil pos => simp [worded, scanFrom] at h
  | cons pos c cs ih =>
    rw [worded_cons] at h
    rcases munch_blank c cs with ⟨hkind, hall⟩ | ⟨hkind, hnone⟩
    · rw [if_pos hkind, List.nil_append] at h
      rw [ih h, ← munch_append c cs, List.takeWhile_append_of_pos hall, byteLength_append,
        Nat.add_assoc]
    · rw [if_neg hkind] at h
      cases h
      obtain ⟨d, ds, hchars⟩ := List.exists_cons_of_ne_nil (munch_ne_nil c cs)
      have hd : ¬ isBlank d := hnone d (by simp [hchars])
      rw [← munch_append c cs, hchars, List.cons_append, List.takeWhile_cons_of_neg hd]
      rfl

theorem rdropWhile_append_of_all {P : Char → Bool} {front rest : List Char} (h : ∀ c ∈ rest, P c) :
    (front ++ rest).rdropWhile P = front.rdropWhile P := by
  induction rest using List.reverseRecOn with
  | nil => rw [List.append_nil]
  | append_singleton rest c ih =>
    rw [← List.append_assoc, List.rdropWhile_concat_pos _ _ _ (h c (by simp)),
      ih fun d hd => h d (List.mem_append_left _ hd)]

theorem rdropWhile_append_of_exists {P : Char → Bool} {front rest : List Char}
    (h : ¬ ∀ c ∈ rest, P c) : (front ++ rest).rdropWhile P = front ++ rest.rdropWhile P := by
  induction rest using List.reverseRecOn with
  | nil => exact absurd nofun h
  | append_singleton rest c ih =>
    rw [← List.append_assoc]
    by_cases hc : P c
    · rw [List.rdropWhile_concat_pos _ _ _ hc, List.rdropWhile_concat_pos _ _ _ hc]
      refine ih fun hall => h fun d hd => ?_
      rcases List.mem_append.1 hd with hd | hd
      · exact hall d hd
      · exact List.mem_singleton.1 hd ▸ hc
    · rw [List.rdropWhile_concat_neg _ _ _ hc, List.rdropWhile_concat_neg _ _ _ hc,
        List.append_assoc]

theorem stop_of_getLast?_worded {pos : Nat} {cs : List Char} {t : Token}
    (h : (worded pos cs).getLast? = some t) :
    t.span.stop = pos + byteLength (cs.rdropWhile isBlank) := by
  induction pos, cs using scan_induct with
  | nil pos => simp [worded, scanFrom] at h
  | cons pos c cs ih =>
    rw [worded_cons, List.getLast?_append] at h
    by_cases hrest : ∀ d ∈ (munch c cs).2.2, isBlank d
    · rw [worded_eq_nil_iff.2 hrest, List.getLast?_nil, Option.none_or] at h
      rcases munch_blank c cs with ⟨hkind, -⟩ | ⟨hkind, hnone⟩
      · rw [if_pos hkind] at h
        cases h
      · rw [if_neg hkind, List.getLast?_singleton, Option.some_inj] at h
        subst h
        have hself : (munch c cs).2.1.rdropWhile isBlank = (munch c cs).2.1 :=
          List.rdropWhile_eq_self_iff.2 fun hne => hnone _ (List.getLast_mem hne)
        rw [← munch_append c cs, rdropWhile_append_of_all hrest, hself]
    · obtain ⟨t', ht'⟩ : ∃ t', (worded (pos + byteLength (munch c cs).2.1)
          (munch c cs).2.2).getLast? = some t' := by
        rw [← Option.ne_none_iff_exists', Ne, List.getLast?_eq_none_iff, worded_eq_nil_iff]
        exact hrest
      rw [ht', Option.some_or] at h
      cases h
      rw [ih ht', ← munch_append c cs, rdropWhile_append_of_exists hrest, byteLength_append,
        Nat.add_assoc]

/-- From the first token of a text to its last one, the text stands without the blanks at its ends. -/
theorem slice?_of_worded {before cs after : List Char} {first last : Token}
    (hfirst : (worded (byteLength before) cs).head? = some first)
    (hlast : (worded (byteLength before) cs).getLast? = some last) :
    slice? (before ++ (cs ++ after)) first.span.start last.span.stop = some (trimBlanks cs) := by
  rw [start_of_head?_worded hfirst, stop_of_getLast?_worded hlast]
  have hexists : ¬ ∀ c ∈ cs.dropWhile isBlank, isBlank c := by
    intro hall
    have hne : worded (byteLength before) cs ≠ [] := by
      intro hnil
      rw [hnil] at hfirst
      cases hfirst
    refine hne (worded_eq_nil_iff.2 fun c hc => ?_)
    rw [← List.takeWhile_append_dropWhile (p := isBlank) (l := cs)] at hc
    exact (List.mem_append.1 hc).elim List.mem_takeWhile_imp (hall c)
  have hcut := List.takeWhile_append_dropWhile (p := isBlank) (l := cs)
  have hstop : cs.rdropWhile isBlank = cs.takeWhile isBlank ++ trimBlanks cs := by
    nth_rewrite 1 [← hcut]
    exact rdropWhile_append_of_exists hexists
  obtain ⟨behind, hbehind⟩ := List.rdropWhile_prefix isBlank (cs.dropWhile isBlank)
  refine slice?_eq_some_iff.2 ⟨before ++ cs.takeWhile isBlank, behind ++ after, ?_, ?_, ?_⟩
  · have hmid : trimBlanks cs ++ behind = cs.dropWhile isBlank := hbehind
    rw [← List.append_assoc (trimBlanks cs), hmid, List.append_assoc, ← List.append_assoc
      (cs.takeWhile isBlank), hcut]
  · rw [byteLength_append]
  · rw [hstop, byteLength_append, byteLength_append, Nat.add_assoc]

end Token

/-! ## Paths -/

open Token

theorem IsFragment.span {tokens : List Token} {f : Fragment} (h : IsFragment tokens f) :
    ∃ first last, tokens.head? = some first ∧ tokens.getLast? = some last ∧
      f.span = ⟨first.span.start, last.span.stop⟩ := by
  cases h with
  | @child t => exact ⟨t, t, rfl, rfl, rfl⟩
  | @handle t => exact ⟨t, t, rfl, rfl, rfl⟩
  | @word t => exact ⟨t, t, rfl, rfl, rfl⟩
  | @sibling t dash name => exact ⟨t, name, rfl, rfl, rfl⟩
  | @ancestor t opening closing tokens =>
    refine ⟨t, closing, rfl, ?_, rfl⟩
    rw [← List.cons_append, ← List.cons_append, List.getLast?_concat]

/-- Where the tokens of a piece reach, a part stands without the blanks at its ends. -/
def Spells (text : List Char) (piece : List Token) (part : List Char) : Prop :=
  ∀ first last, piece.head? = some first → piece.getLast? = some last →
    slice? text first.span.start last.span.stop = some (trimBlanks part)

/-- Every piece of the tokens between two slashes is read from a part of the text between two slashes. -/
theorem spells_pieces (before cs : List Char) :
    List.Forall₂ (Spells (before ++ cs)) (Grammar.pieces (worded (byteLength before) cs))
      (splitOn '/' cs) := by
  have hworded : ∀ {cs : List Char}, '/' ∉ cs → ∀ t ∈ worded (byteLength before) cs,
      t.kind ≠ .slash := fun h t ht => kind_ne_slash h t (List.mem_of_mem_filter ht)
  rcases exists_first_separator '/' cs with hnone | ⟨front, rest, hfront, hcs⟩
  · rw [splitOn_of_not_mem hnone, Grammar.pieces, segments_of_not_slash (hworded hnone)]
    refine .cons (fun first last hfirst hlast => ?_) .nil
    have hslice := @slice?_of_worded before cs [] first last hfirst hlast
    rwa [List.append_nil] at hslice
  · obtain ⟨slash, hslash, hscan⟩ := @scanFrom_append_slash (byteLength before) front rest hfront
    have hsplit : worded (byteLength before) cs = worded (byteLength before) front ++
        slash :: worded (byteLength (before ++ (front ++ ['/']))) rest := by
      rw [byteLength_append, worded, hcs, hscan, List.filter_append,
        List.filter_cons_of_pos (by simp [hslash]), worded, worded]
    have hlater := spells_pieces (before ++ (front ++ ['/'])) rest
    rw [hsplit, Grammar.pieces, segments_append hslash (hworded hfront), hcs,
      splitOn_append hfront]
    refine .cons (fun first last hfirst hlast => slice?_of_worded hfirst hlast) ?_
    have htext : before ++ (front ++ ['/']) ++ rest = before ++ (front ++ '/' :: rest) := by simp
    rw [htext] at hlater
    exact hlater
  termination_by cs.length
  decreasing_by
    rw [hcs, List.length_append, List.length_cons]
    omega

/-- The fragments of a path that is read without a fault are what stands between its slashes, without
the blanks at the ends. -/
theorem Path.fragmentTexts_eq {text : List Char} (hproblems : (Path.ofText text).problems = [])
    (hfragments : (Path.ofText text).fragments ≠ []) :
    (Path.ofText text).fragmentTexts text =
      (splitOn '/' text).map fun part => String.ofList (trimBlanks part) := by
  have hpath : IsPath (Token.tokens text) (Path.ofText text).fragments :=
    isPath_iff_path.2 ⟨hproblems, rfl⟩
  have hpieces : List.Forall₂ IsFragment (Grammar.pieces (Token.tokens text))
      (Path.ofText text).fragments := by
    generalize (Path.ofText text).fragments = fs at hpath hfragments ⊢
    generalize Token.tokens text = tokens at hpath ⊢
    cases hpath with
    | empty => exact absurd rfl hfragments
    | fragments h => exact h.forall₂
  have hspells := spells_pieces [] text
  rw [List.nil_append] at hspells
  change List.Forall₂ _ (Grammar.pieces (Token.tokens text)) _ at hspells
  rw [Path.fragmentTexts]
  generalize (Path.ofText text).fragments = fs at hpieces ⊢
  generalize splitOn '/' text = parts at hspells ⊢
  generalize Grammar.pieces (Token.tokens text) = pieces at hpieces hspells
  clear hproblems hfragments hpath
  induction hpieces generalizing parts with
  | nil =>
    cases hspells
    rfl
  | cons hfragment _ ih =>
    obtain _ | ⟨hspell, hrest⟩ := hspells
    obtain ⟨first, last, hfirst, hlast, hspan⟩ := hfragment.span
    rw [List.map_cons, List.map_cons, ih _ hrest, hspan, hspell first last hfirst hlast,
      Option.getD_some]

end Selector
end UILayout
