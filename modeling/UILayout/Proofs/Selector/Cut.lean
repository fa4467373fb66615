import UILayout.Proofs.Selector.Spans

/-!
# UILayout.Proofs.Selector.Cut

Texts that are cut between their tokens. What stands in front of a cut is scanned as before, for no
rule looks behind the end of a token; and what stands behind it keeps its offsets when there are blanks
for all that was cut off. So some tokens of a text that stand side by side are all tokens of a text of
their own.

* `scanFrom_split`, `worded_cut`: cutting a text in front of a token.
* `exists_own`: texts of some of the tokens.
* `slice?_of_mem_tokens`: a token stands where its span says.
-/

namespace UILayout
namespace Selector
namespace Token

open Text

variable {pos : Nat} {cs text : List Char} {front behind mid rest : List Token} {t : Token}

/-! ## In front of a cut -/

theorem takeWhile_cut {P : Char → Bool} {before after : List Char}
    (h : cs.dropWhile P = before ++ after) :
    (cs.takeWhile P ++ before).takeWhile P = cs.takeWhile P ∧
      (cs.takeWhile P ++ before).dropWhile P = before := by
  have hall : ∀ c ∈ cs.takeWhile P, P c := fun c hc => List.mem_takeWhile_imp hc
  have hstop : before.takeWhile P = [] ∧ before.dropWhile P = before := by
    cases before with
    | nil => exact ⟨rfl, rfl⟩
    | cons c before =>
      have hc : P c = false := by simpa [h] using List.head?_dropWhile_not P cs
      simp [hc]
  rw [List.takeWhile_append_of_pos hall, List.dropWhile_append_of_pos hall, hstop.1, hstop.2,
    List.append_nil]
  exact ⟨rfl, rfl⟩

/-- What follows a dollar sign: a word, with which it is one token, or nothing of the kind. -/
theorem munch_dollar (cs : List Char) :
    (cs.takeWhile isWord = [] ∧ munch '$' cs = (.unknown, ['$'], cs)) ∨
      (cs.takeWhile isWord ≠ [] ∧ munch '$' cs =
        (kindOfWord (cs.takeWhile isWord), '$' :: cs.takeWhile isWord, cs.dropWhile isWord)) := by
  rw [munch, if_neg (by decide), if_neg (by decide), if_pos rfl]
  cases cs.takeWhile isWord with
  | nil => exact .inl ⟨rfl, rfl⟩
  | cons w ws => exact .inr ⟨List.cons_ne_nil _ _, rfl⟩

/-- A token stays what it is when the text is cut behind it. -/
theorem munch_cut {c : Char} {before after : List Char} (h : (munch c cs).2.2 = before ++ after) :
    ∃ ds, (munch c cs).2.1 ++ before = c :: ds ∧
      munch c ds = ((munch c cs).1, (munch c cs).2.1, before) := by
  by_cases hdollar : c = '$'
  · subst hdollar
    rcases munch_dollar cs with ⟨hnone, hmunch⟩ | ⟨hsome, hmunch⟩
    · rw [hmunch] at h ⊢
      have hdrop : cs.dropWhile isWord = before ++ after := by
        rw [← h]
        nth_rewrite 2 [← List.takeWhile_append_dropWhile (p := isWord) (l := cs)]
        rw [hnone, List.nil_append]
      obtain ⟨htake, -⟩ := takeWhile_cut hdrop
      rw [hnone, List.nil_append] at htake
      exact ⟨before, rfl, ((munch_dollar before).resolve_right fun hword => hword.1 htake).2⟩
    · rw [hmunch] at h ⊢
      obtain ⟨htake, hdrop⟩ := takeWhile_cut h
      refine ⟨cs.takeWhile isWord ++ before, rfl, ?_⟩
      have hword := ((munch_dollar (cs.takeWhile isWord ++ before)).resolve_left
        fun hnone => hsome (htake.symm.trans hnone.1)).2
      rwa [htake, hdrop] at hword
  · by_cases hblank : isBlank c
    · have hmunch : ∀ ds, munch c ds = (.blank, c :: ds.takeWhile isBlank, ds.dropWhile isBlank) :=
        fun ds => if_pos hblank
      rw [hmunch] at h ⊢
      obtain ⟨htake, hdrop⟩ := takeWhile_cut h
      exact ⟨cs.takeWhile isBlank ++ before, rfl, by rw [hmunch, htake, hdrop]⟩
    · by_cases hword : isWord c
      · have hmunch : ∀ ds, munch c ds = (.ident, c :: ds.takeWhile isWord, ds.dropWhile isWord) :=
          fun ds => (if_neg hblank).trans (if_pos hword)
        rw [hmunch] at h ⊢
        obtain ⟨htake, hdrop⟩ := takeWhile_cut h
        exact ⟨cs.takeWhile isWord ++ before, rfl, by rw [hmunch, htake, hdrop]⟩
      · have hmunch : ∀ ds, munch c ds = (kindOfMark c, [c], ds) := fun ds =>
          (if_neg hblank).trans ((if_neg hword).trans (if_neg hdollar))
        rw [hmunch]
        exact ⟨before, rfl, hmunch before⟩

/-- Some tokens at the front of a scan are the scan of what stands in front of the others. -/
theorem scanFrom_split (h : scanFrom pos cs = front ++ rest) :
    ∃ before after, cs = before ++ after ∧ scanFrom pos before = front ∧
      scanFrom (pos + byteLength before) after = rest := by
  induction pos, cs using scan_induct generalizing front with
  | nil pos =>
    rw [scanFrom] at h
    obtain ⟨rfl, rfl⟩ := List.append_eq_nil_iff.1 h.symm
    exact ⟨[], [], rfl, by rw [scanFrom], by rw [scanFrom]⟩
  | cons pos c cs ih =>
    cases front with
    | nil => exact ⟨[], c :: cs, rfl, by rw [scanFrom], h⟩
    | cons t front =>
      rw [scanFrom_cons, List.cons_append, List.cons.injEq] at h
      obtain ⟨rfl, h⟩ := h
      obtain ⟨before, after, hcs, hfront, hrest⟩ := ih h
      obtain ⟨ds, hds, hmunch⟩ := munch_cut hcs
      refine ⟨c :: ds, after, ?_, ?_, ?_⟩
      · rw [← hds, List.append_assoc, ← hcs, munch_append]
      · rw [scanFrom_cons, hmunch, hfront]
      · rw [← hrest, ← hds, byteLength_append, Nat.add_assoc]

theorem worded_split (h : worded pos cs = front ++ rest) :
    ∃ before after, cs = before ++ after ∧ worded pos before = front ∧
      worded (pos + byteLength before) after = rest := by
  obtain ⟨front', rest', hscan, rfl, rfl⟩ := List.filter_eq_append_iff.1 h
  obtain ⟨before, after, rfl, hbefore, hafter⟩ := scanFrom_split hscan
  exact ⟨before, after, rfl, by rw [worded, hbefore], by rw [worded, hafter]⟩

/-- Where a token stands in a text, and what it is. -/
theorem worded_cut (h : worded pos cs = front ++ t :: rest) :
    ∃ before c after, cs = before ++ c :: after ∧ worded pos before = front ∧
      t = ⟨(munch c after).1, String.ofList (munch c after).2.1,
        ⟨pos + byteLength before, pos + byteLength before + byteLength (munch c after).2.1⟩⟩ := by
  obtain ⟨front', rest', hscan, rfl, hrest⟩ := List.filter_eq_append_iff.1 h
  obtain ⟨blanks, rest'', rfl, hblanks, -, -⟩ := List.filter_eq_cons_iff.1 hrest
  rw [← List.append_assoc] at hscan
  obtain ⟨before, after, rfl, hbefore, hafter⟩ := scanFrom_split hscan
  cases after with
  | nil => rw [scanFrom] at hafter; cases hafter
  | cons c after =>
    rw [scanFrom_cons, List.cons.injEq] at hafter
    refine ⟨before, c, after, rfl, ?_, hafter.1.symm⟩
    rw [worded, hbefore, List.filter_append, List.filter_eq_nil_iff.2 hblanks, List.append_nil]

/-! ## Behind a cut -/

theorem worded_dropWhile (pos : Nat) (cs : List Char) :
    worded pos cs = worded (pos + byteLength (cs.takeWhile isBlank)) (cs.dropWhile isBlank) := by
  cases cs with
  | nil => rfl
  | cons c cs =>
    by_cases hc : isBlank c
    · have hmunch : munch c cs = (.blank, c :: cs.takeWhile isBlank, cs.dropWhile isBlank) := if_pos hc
      rw [worded_cons, hmunch, List.takeWhile_cons_of_pos hc, List.dropWhile_cons_of_pos hc]
      rfl
    · rw [List.takeWhile_cons_of_neg hc, List.dropWhile_cons_of_neg hc]
      rfl

theorem byteLength_replicate_blank (n : Nat) : byteLength (List.replicate n ' ') = n := by
  induction n with
  | zero => rfl
  | succ n ih =>
    rw [List.replicate_succ, byteLength_cons, ih, Nat.add_comm]
    rfl

/-- Blanks in front of a text move its tokens. -/
theorem worded_blanks (pos n : Nat) (cs : List Char) :
    worded pos (List.replicate n ' ' ++ cs) = worded (pos + n) cs := by
  have hblanks : ∀ c ∈ List.replicate n ' ', isBlank c := fun c hc => by
    rw [List.eq_of_mem_replicate hc]
    rfl
  rw [worded_dropWhile, List.takeWhile_append_of_pos hblanks, List.dropWhile_append_of_pos hblanks,
    worded_dropWhile (pos + n), byteLength_append, byteLength_replicate_blank,
    Nat.add_assoc]

/-- Tokens that stand side by side are all tokens of some text. -/
theorem exists_own (h : tokens text = front ++ mid ++ rest) : ∃ own, tokens own = mid := by
  rw [List.append_assoc] at h
  obtain ⟨before, after, -, -, hafter⟩ := worded_split (h : worded 0 text = _)
  obtain ⟨own, -, -, hown, -⟩ := worded_split hafter
  exact ⟨List.replicate (0 + byteLength before) ' ' ++ own,
    (worded_blanks 0 _ own).trans (by rw [Nat.zero_add, hown])⟩

/-! ## Single tokens -/

theorem slice?_of_mem_tokens (h : t ∈ tokens text) :
    slice? text t.span.start t.span.stop = some t.text.toList ∧ t.text ≠ "" := by
  obtain ⟨front, rest, h⟩ := List.append_of_mem h
  obtain ⟨before, c, after, rfl, -, rfl⟩ := worded_cut (h : worded 0 text = _)
  refine ⟨slice?_eq_some_iff.2 ⟨before, (munch c after).2.2, ?_, ?_, ?_⟩, ?_⟩
  · simp [munch_append]
  · simp
  · simp
  · simpa using munch_ne_nil c after

theorem start_lt_stop_of_mem_tokens (h : t ∈ tokens text) : t.span.start < t.span.stop := by
  obtain ⟨hslice, hne⟩ := slice?_of_mem_tokens h
  have hlength := byteLength_of_slice? hslice
  have hpos : 0 < byteLength t.text.toList := by
    cases hchars : t.text.toList with
    | nil => exact absurd (String.toList_eq_nil_iff.1 hchars) hne
    | cons c cs => exact Nat.lt_of_lt_of_le c.utf8Size_pos (Nat.le_add_right _ _)
  omega

/-- The name in a handle stands behind its dollar sign. -/
theorem slice?_handle_of_mem_tokens (h : t ∈ tokens text) (hkind : t.kind = .handle) :
    slice? text t.handle.span.start t.handle.span.stop = some t.handle.text.toList := by
  obtain ⟨front, rest, h⟩ := List.append_of_mem h
  obtain ⟨before, c, after, rfl, -, rfl⟩ := worded_cut (h : worded 0 text = _)
  obtain ⟨name, hname⟩ := handle_of_munch hkind
  have hdollar : '$'.utf8Size = 1 := rfl
  refine slice?_eq_some_iff.2 ⟨before ++ ['$'], (munch c after).2.2, ?_, ?_, ?_⟩
  · rw [← munch_append, hname]
    simp [Token.handle]
  · simp [Token.handle, hdollar]
  · simp [Token.handle, hname, hdollar, Nat.add_assoc]

end Token
end Selector
end UILayout
