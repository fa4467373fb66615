import UILayout.Check.Document
import UILayout.Outline.Definition
import UILayout.Proofs.Markup.Value
import UILayout.Proofs.Selector.Property

/-!
# UILayout.Proofs.Selector.Forms

The form of a value is told from its characters, and what is read from it is told from its tokens. The
two agree on brackets and dots: both are tokens by themselves, and every path closes the brackets that it
opens. They do not agree on names: the name of a constant may have characters that no word of an
expression has.

* `foldl_nest`: characters and tokens agree on how deep in brackets a text ends.
* `IsPath.foldl_nest`: a path ends as deep as it begins.
* `ofText_agrees`: binds have the form of binds, and paths have not.
* `constant_readsAsHandle_iff`: which constants are read as the handle of their name.
-/

namespace UILayout
namespace Selector

open Text Markup Token

variable {depth : Nat} {cs front back text : List Char} {tokens : List Token} {fs : List Fragment}

/-! ## Brackets and dots -/

/-- How deep in brackets a token leaves a text. -/
def Token.nest (depth : Nat) (t : Token) : Nat :=
  match t.kind with
  | .openBracket => depth + 1
  | .closeBracket => depth - 1
  | _ => depth

/-- Characters that are no brackets and no dots. -/
def IsPlain (c : Char) : Prop := c ≠ '[' ∧ c ≠ ']' ∧ c ≠ '.'

theorem isPlain_of_isBlank {c : Char} (h : isBlank c) : IsPlain c := by
  refine ⟨?_, ?_, ?_⟩ <;> (rintro rfl; revert h; decide)

theorem isPlain_of_isWord {c : Char} (h : isWord c) : IsPlain c := by
  refine ⟨?_, ?_, ?_⟩ <;> (rintro rfl; revert h; decide)

theorem kindOfWord_plain (word : List Char) :
    kindOfWord word ≠ .openBracket ∧ kindOfWord word ≠ .closeBracket ∧ kindOfWord word ≠ .dot := by
  unfold kindOfWord
  split_ifs <;> simp

/-- A token is a single mark, or it has no bracket and no dot. -/
theorem munch_mark_or_plain (c : Char) (cs : List Char) :
    munch c cs = (kindOfMark c, [c], cs) ∨
      (∀ d ∈ (munch c cs).2.1, IsPlain d) ∧ (munch c cs).1 ≠ .openBracket ∧
        (munch c cs).1 ≠ .closeBracket ∧ (munch c cs).1 ≠ .dot := by
  have hrun : ∀ {P : Char → Bool}, (∀ d, P d → IsPlain d) → IsPlain c →
      ∀ d ∈ c :: cs.takeWhile P, IsPlain d := by
    intro P hP hc d hd
    rcases List.mem_cons.1 hd with rfl | hd
    · exact hc
    · exact hP d (List.mem_takeWhile_imp hd)
  by_cases hblank : isBlank c
  · have hmunch : munch c cs = (.blank, c :: cs.takeWhile isBlank, cs.dropWhile isBlank) :=
      if_pos hblank
    rw [hmunch]
    exact .inr ⟨hrun (fun _ => isPlain_of_isBlank) (isPlain_of_isBlank hblank), by simp⟩
  · by_cases hword : isWord c
    · have hmunch : munch c cs = (.ident, c :: cs.takeWhile isWord, cs.dropWhile isWord) :=
        (if_neg hblank).trans (if_pos hword)
      rw [hmunch]
      exact .inr ⟨hrun (fun _ => isPlain_of_isWord) (isPlain_of_isWord hword), by simp⟩
    · by_cases hdollar : c = '$'
      · subst hdollar
        have hplain : IsPlain '$' := by simp [IsPlain]
        rcases munch_dollar cs with ⟨-, hmunch⟩ | ⟨-, hmunch⟩
        · rw [hmunch]
          exact .inr ⟨by simpa using hplain, by simp⟩
        · rw [hmunch]
          exact .inr ⟨hrun (fun _ => isPlain_of_isWord) hplain, kindOfWord_plain _⟩
      · exact .inl ((if_neg hblank).trans ((if_neg hword).trans (if_neg hdollar)))

theorem foldl_nest_plain (h : ∀ c ∈ cs, IsPlain c) : cs.foldl ValueForm.nest depth = depth := by
  induction cs generalizing depth with
  | nil => rfl
  | cons c cs ih =>
    obtain ⟨hopen, hclose, -⟩ := h c List.mem_cons_self
    rw [List.foldl_cons, ValueForm.nest, if_neg hopen, if_neg hclose]
    exact ih fun d hd => h d (List.mem_cons_of_mem _ hd)

theorem nest_kindOfMark (depth : Nat) (c : Char) (word : String) (span : Span) :
    Token.nest depth ⟨kindOfMark c, word, span⟩ = ValueForm.nest depth c := by
  unfold Token.nest ValueForm.nest kindOfMark
  split_ifs <;> simp_all

/-- The characters of a token nest as it does. -/
theorem foldl_nest_munch (depth : Nat) (c : Char) (cs : List Char) (word : String) (span : Span) :
    (munch c cs).2.1.foldl ValueForm.nest depth = Token.nest depth ⟨(munch c cs).1, word, span⟩ := by
  rcases munch_mark_or_plain c cs with hmunch | ⟨hplain, hopen, hclose, -⟩
  · rw [hmunch]
    exact (nest_kindOfMark depth c word span).symm
  · rw [foldl_nest_plain hplain]
    unfold Token.nest
    split
    · exact absurd ‹_› hopen
    · exact absurd ‹_› hclose
    · rfl

/-- Characters and tokens agree on how deep in brackets a text ends. -/
theorem foldl_nest (pos depth : Nat) (cs : List Char) :
    cs.foldl ValueForm.nest depth = (worded pos cs).foldl Token.nest depth := by
  induction pos, cs using scan_induct generalizing depth with
  | nil pos => simp [worded, scanFrom]
  | cons pos c cs ih =>
    have hfirst := foldl_nest_munch depth c cs (String.ofList (munch c cs).2.1)
      ⟨pos, pos + byteLength (munch c cs).2.1⟩
    nth_rewrite 1 [← munch_append c cs]
    rw [List.foldl_append, ih, worded_cons, hfirst]
    split
    · rename_i hblank
      simp [Token.nest, hblank]
    · rfl

/-- A dot is a token. -/
theorem exists_dot (pos : Nat) (h : '.' ∈ cs) : ∃ t ∈ worded pos cs, t.kind = .dot := by
  induction pos, cs using scan_induct with
  | nil pos => cases h
  | cons pos c cs ih =>
    rw [worded_cons]
    rw [← munch_append c cs] at h
    rcases List.mem_append.1 h with hfirst | hrest
    · rcases munch_mark_or_plain c cs with hmunch | ⟨hplain, -⟩
      · rw [hmunch] at hfirst
        obtain rfl := List.mem_singleton.1 hfirst
        exact ⟨_, List.mem_append_left _ (List.mem_singleton_self _), rfl⟩
      · exact absurd rfl (hplain '.' hfirst).2.2
    · obtain ⟨t, ht, hdot⟩ := ih hrest
      exact ⟨t, List.mem_append_right _ ht, hdot⟩

/-! ## Paths close their brackets -/

theorem nest_of_kind {t : Token} (h : t.kind ≠ .openBracket ∧ t.kind ≠ .closeBracket) :
    Token.nest depth t = depth := by
  unfold Token.nest
  split
  · exact absurd ‹_› h.1
  · exact absurd ‹_› h.2
  · rfl

theorem IsParam.foldl_nest {p : Param} (h : IsParam tokens p) (depth : Nat) :
    tokens.foldl Token.nest depth = depth := by
  cases h with
  | plain hpair =>
    obtain ⟨hkey, -, heq, hvalue⟩ := hpair
    simp [Token.nest, hkey, heq, hvalue]
  | sign hsign hpair =>
    obtain ⟨hkey, -, heq, hvalue⟩ := hpair
    simp [Token.nest, hsign, hkey, heq, hvalue]

theorem IsParams.foldl_nest {ps : List Param} (h : IsParams tokens ps) (depth : Nat) :
    tokens.foldl Token.nest depth = depth := by
  induction h with
  | one hp => exact hp.foldl_nest depth
  | more hp hcomma _ ih =>
    rw [List.foldl_append, hp.foldl_nest, List.foldl_cons, nest_of_kind (by simp [hcomma]), ih]

theorem IsFragment.foldl_nest {f : Fragment} (h : IsFragment tokens f) (depth : Nat) :
    tokens.foldl Token.nest depth = depth := by
  cases h with
  | child hkind => exact nest_of_kind (by simp [hkind])
  | handle hkind => exact nest_of_kind (by simp [hkind])
  | @word t step hstep =>
    refine nest_of_kind ⟨fun hkind => ?_, fun hkind => ?_⟩ <;> (rw [hkind] at hstep; cases hstep)
  | sibling hkind hdash hname => simp [Token.nest, hkind, hdash, hname]
  | ancestor hkind hopening hps hclosing =>
    rw [List.foldl_cons, List.foldl_cons, List.foldl_append, hps.foldl_nest]
    simp [Token.nest, hkind, hopening, hclosing]

theorem IsFragments.foldl_nest (h : IsFragments tokens fs) (depth : Nat) :
    tokens.foldl Token.nest depth = depth := by
  induction h with
  | one hf => exact hf.foldl_nest depth
  | more hf hslash _ ih =>
    rw [List.foldl_append, hf.foldl_nest, List.foldl_cons, nest_of_kind (by simp [hslash]), ih]

/-- A path ends as deep in brackets as it begins. -/
theorem IsPath.foldl_nest (h : IsPath tokens fs) (depth : Nat) :
    tokens.foldl Token.nest depth = depth := by
  cases h with
  | empty => rfl
  | fragments h => exact h.foldl_nest depth

theorem IsPath.not_mem_dot (h : IsPath (Token.tokens text) fs) : '.' ∉ text := by
  intro hmem
  obtain ⟨t, ht, hdot⟩ := exists_dot 0 hmem
  exact h.not_dot t ht hdot

/-! ## Forms -/

theorem hasOpenDot_of_path (h : (Path.ofText text).problems = []) :
    ValueForm.hasOpenDot 0 text = false := by
  obtain ⟨fs, hfs⟩ := (Path.ofText_exact text).1.1 h
  exact ValueForm.hasOpenDot_eq_false hfs.not_mem_dot 0

/-- In front of its dot, a bind is a path, which leaves no bracket open. -/
theorem hasOpenDot_of_bind (h : (Bind.ofText text).problems = []) :
    ValueForm.hasOpenDot 0 text = true := by
  obtain ⟨path, dot, name, hbind⟩ := (Bind.faultless_iff text).1 h
  obtain ⟨before, after, rfl, -, rfl⟩ := hbind.before_dot
  obtain ⟨fs, hfs⟩ := hbind.path.isPath
  have hclosed : before.foldl ValueForm.nest 0 = 0 := (foldl_nest 0 0 before).trans (hfs.foldl_nest 0)
  rw [ValueForm.hasOpenDot_append hfs.not_mem_dot, hclosed]
  rfl

theorem ofText_of_bind {name : List Char} (h : (Bind.ofText ('$' :: name)).problems = []) :
    ValueForm.ofText ('$' :: name) = .bind :=
  ValueForm.ofText_eq_bind_iff.2 (hasOpenDot_of_bind h)

theorem ofText_of_path {name : List Char} (h : (Path.ofText ('$' :: name)).problems = []) :
    ValueForm.ofText ('$' :: name) ≠ .bind := by
  rw [Ne, ValueForm.ofText_eq_bind_iff, hasOpenDot_of_path h]
  exact Bool.false_ne_true

/-- A bind that is read without a fault has the form of a bind and is checked as one, and a path that is
read without a fault has another form and is checked as a constant or as a plain value. -/
theorem ofText_agrees (name : List Char) :
    ((Bind.ofText ('$' :: name)).problems = [] → ValueForm.ofText ('$' :: name) = .bind) ∧
      ((Path.ofText ('$' :: name)).problems = [] → ValueForm.ofText ('$' :: name) ≠ .bind) ∧
      ∀ (ctx : Context) (scope : DescId) (h : Hierarchy) (a : Attribute)
        (type : Schema.SimpleTypeId), a.value.toList = '$' :: name →
          ((Bind.ofText ('$' :: name)).problems = [] →
            Check.checkValue ctx scope h a type = (Check.checkBind ctx a, h)) ∧
          ((Path.ofText ('$' :: name)).problems = [] → Check.checkValue ctx scope h a type =
            match Namespace.Reference.ofValue? a.value with
            | some r => Check.checkConstant ctx scope h a type r
            | none => Check.checkPlain ctx scope h a type) := by
  refine ⟨ofText_of_bind, ofText_of_path, fun ctx scope h a type hvalue => ⟨?_, ?_⟩⟩
  · intro hbind
    have hform := ofText_of_bind hbind
    rw [← hvalue] at hform
    simp [Check.checkValue, Namespace.Reference.ofValue?, hform]
  · intro hpath
    have hform := ofText_of_path hpath
    rw [← hvalue] at hform
    unfold Check.checkValue
    cases Namespace.Reference.ofValue? a.value with
    | some r => rfl
    | none =>
      dsimp only
      split
      · exact absurd ‹_› hform
      · rfl

theorem ofText_agrees_ancestor :
    let bind := "ancestor[name=A]/B.Visible".toList
    let path := "ancestor[name=A]/B".toList
    ((Bind.ofText ('$' :: bind)).problems = [] ∧ ValueForm.ofText ('$' :: bind) = .bind) ∧
      (Path.ofText ('$' :: path)).problems = [] ∧ ValueForm.ofText ('$' :: path) ≠ .bind := by
  intro bind path
  have hbind : (Bind.ofText ('$' :: bind)).problems = [] := by decide +kernel
  have hpath : (Path.ofText ('$' :: path)).problems = [] := by decide +kernel
  exact ⟨⟨hbind, (ofText_agrees bind).1 hbind⟩, hpath, (ofText_agrees path).2.1 hpath⟩

/-! ## Names of constants -/

theorem isIdentifierChar_of_mark {c : Char}
    (h : c ∈ [' ', '\t', '\r', '\n', '$', '/', '[', ']', '=', ',', '.', '@', '-']) :
    isIdentifierChar c = false := by
  simp only [List.mem_cons, List.not_mem_nil, or_false] at h
  rcases h with rfl | rfl | rfl | rfl | rfl | rfl | rfl | rfl | rfl | rfl | rfl | rfl | rfl <;>
    decide +kernel

/-- A character that may stand in the name of a constant and in no word of an expression starts no
token. -/
theorem munch_unknown {c : Char} (hident : c = '_' ∨ isIdentifierChar c) (hword : ¬ isWord c)
    (cs : List Char) : munch c cs = (.unknown, [c], cs) := by
  have hchar : isIdentifierChar c := by
    refine hident.resolve_left ?_
    rintro rfl
    exact hword (by decide)
  have hmark := mt (@isIdentifierChar_of_mark c) (by simp [hchar])
  simp only [List.mem_cons, List.not_mem_nil, or_false, not_or] at hmark
  simp [munch, isBlank, hword, kindOfMark, hmark]

theorem isIdentifier_iff {name : List Char} :
    isIdentifier name = true ↔ name ≠ [] ∧ ∀ c ∈ name, c = '_' ∨ isIdentifierChar c := by
  simp [isIdentifier]

theorem kindOfWord_of_not_keyword {word : List Char}
    (h : ¬ Step.isKeyword (String.ofList word)) : kindOfWord word = .handle := by
  unfold kindOfWord
  split_ifs with h1 h2 h3 h4 h5 h6
  all_goals first
    | (subst_vars; revert h; decide)
    | rfl

/-- A dollar sign and a word are one handle. -/
theorem tokens_of_word {name : List Char} (hne : name ≠ []) (hword : ∀ c ∈ name, isWord c)
    (hkey : ¬ Step.isKeyword (String.ofList name)) : Token.tokens ('$' :: name) =
      [⟨.handle, String.ofList ('$' :: name), ⟨0, byteLength ('$' :: name)⟩⟩] := by
  have htake : name.takeWhile isWord = name := List.takeWhile_eq_self_iff.2 hword
  have hdrop : name.dropWhile isWord = [] := List.dropWhile_eq_nil_iff.2 hword
  have hmunch := ((munch_dollar name).resolve_left fun hnone => hne (htake.symm.trans hnone.1)).2
  rw [htake, hdrop, kindOfWord_of_not_keyword hkey] at hmunch
  change worded 0 ('$' :: name) = _
  rw [worded_cons, hmunch]
  simp [worded, scanFrom]

/-- Any other name goes on behind the word with a character that starts no token. -/
theorem exists_unknown {name : List Char} (hident : ∀ c ∈ name, c = '_' ∨ isIdentifierChar c)
    (hword : ¬ ∀ c ∈ name, isWord c) : ∃ t ∈ Token.tokens ('$' :: name), t.kind = .unknown := by
  change ∃ t ∈ worded 0 ('$' :: name), t.kind = .unknown
  rw [worded_cons]
  rcases munch_dollar name with ⟨-, hmunch⟩ | ⟨-, hmunch⟩
  · rw [hmunch]
    exact ⟨_, List.mem_append_left _ (List.mem_singleton_self _), rfl⟩
  · rw [hmunch]
    cases hrest : name.dropWhile isWord with
    | nil => exact absurd (List.dropWhile_eq_nil_iff.1 hrest) hword
    | cons c rest =>
      have hc : ¬ isWord c := by simpa [hrest] using List.head?_dropWhile_not isWord name
      have hmem : c ∈ name := (List.dropWhile_sublist _).subset (hrest ▸ List.mem_cons_self)
      rw [worded_cons, munch_unknown (hident c hmem) hc]
      exact ⟨_, List.mem_append_right _ (List.mem_append_left _ (List.mem_singleton_self _)), rfl⟩

/-- A text that is read without a fault, as one handle of a name. -/
structure ReadsAsHandle (text name : List Char) : Prop where
  faultless : (Path.ofText text).problems = []
  handle : ∃ f i, (Path.ofText text).fragments = [f] ∧ f.step = .handle i ∧ i.text = String.ofList name

/-- The desc that is registered under the name as a handle is where a path leads. -/
def FollowsHandle (text name : List Char) : Prop :=
  ∀ (ctx : Context) (h : Hierarchy) (id : NodeId) (handle : Namespace.Handle),
    ctx.names.handle? (String.ofList name) = some handle →
      ∀ f ∈ (Path.ofText text).fragments, h.step ctx id f.step = h.ofDesc ctx handle.desc

/-- A value that is no path, which is reported where a path is checked, and leads nowhere when the
constant of its name is not declared. -/
structure IsMisread (text name : List Char) : Prop where
  faults : (Path.ofText text).problems ≠ []
  reported : ∀ (ctx : Context) (h : Hierarchy) (a : Attribute) (t : Schema.SimpleType) (scope : DescId),
    a.value = String.ofList text →
      Check.checkReference ctx h a t scope = (Check.selectorReports a (Path.ofText text).problems, h)
  targets : ∀ (ctx : Context) (h : Hierarchy) (scope : DescId) (builtin : Schema.Builtin)
    (position : Nat), ctx.names.resolve? (.exact (String.ofList name)) = none →
      Outline.valueTargets ctx h scope builtin (String.ofList text) position = ([], h)

theorem ofValue?_of_constant {name : List Char} (h : ValueForm.ofText ('$' :: name) = .constant) :
    Namespace.Reference.ofValue? (String.ofList ('$' :: name)) = some (.exact (String.ofList name)) := by
  simp [Namespace.Reference.ofValue?, h]

theorem readsAsHandle_of_word {name : List Char} (hne : name ≠ []) (hword : ∀ c ∈ name, isWord c)
    (hkey : ¬ Step.isKeyword (String.ofList name)) : ReadsAsHandle ('$' :: name) name := by
  let t : Token := ⟨.handle, String.ofList ('$' :: name), ⟨0, byteLength ('$' :: name)⟩⟩
  have hpath : IsPath (Token.tokens ('$' :: name)) [⟨.handle t.handle, t.span⟩] := by
    rw [tokens_of_word hne hword hkey]
    exact .fragments (.one (.handle rfl))
  obtain ⟨hproblems, hfragments⟩ := ((Path.ofText_exact _).2 _).1 hpath
  exact ⟨hproblems, _, _, hfragments, rfl, by simp [t, Token.handle]⟩

theorem ReadsAsHandle.followsHandle {text name : List Char} (h : ReadsAsHandle text name) :
    FollowsHandle text name := by
  intro ctx hierarchy id handle hhandle f hf
  obtain ⟨g, i, hfragments, hstep, hname⟩ := h.handle
  rw [hfragments, List.mem_singleton] at hf
  rw [hf, hstep, Hierarchy.step, hname, hhandle]

theorem isMisread_of_faults {name : List Char} (h : ValueForm.ofText ('$' :: name) = .constant)
    (hfaults : (Path.ofText ('$' :: name)).problems ≠ []) : IsMisread ('$' :: name) name := by
  refine ⟨hfaults, fun ctx hierarchy a t scope hvalue => ?_,
    fun ctx hierarchy scope builtin position hnone => ?_⟩
  · unfold Check.checkReference Check.readPath
    simp [hvalue, Path.hasProblems, hfaults]
  · unfold Outline.valueTargets
    rw [ofValue?_of_constant h]
    simp [hnone, Outline.pathTargets, Path.hasProblems, hfaults]

/-- A value of the form of a constant is read as a handle of its name just when the name is a word of
the expressions: ASCII letters, digits and underscores. Such a name is looked up among the handles; with
any other the value is misread, whatever handles there are. -/
theorem constant_readsAsHandle_iff {text : List Char} (h : ValueForm.ofText text = .constant) :
    ∃ name, text = '$' :: name ∧
      Namespace.Reference.ofValue? (String.ofList text) = some (.exact (String.ofList name)) ∧
      (ReadsAsHandle text name ↔ ∀ c ∈ name, isWord c) ∧
      (ReadsAsHandle text name ∧ FollowsHandle text name ∨ IsMisread text name) := by
  obtain ⟨name, rfl, hident, hkey⟩ := ValueForm.ofText_eq_constant_iff.1 h
  obtain ⟨hne, hchars⟩ := isIdentifier_iff.1 hident
  refine ⟨name, rfl, ofValue?_of_constant h, ?_⟩
  by_cases hword : ∀ c ∈ name, isWord c
  · have hreads := readsAsHandle_of_word hne hword hkey
    exact ⟨iff_of_true hreads hword, .inl ⟨hreads, hreads.followsHandle⟩⟩
  · have hfaults : (Path.ofText ('$' :: name)).problems ≠ [] := by
      intro hproblems
      obtain ⟨t, ht, hkind⟩ := exists_unknown hchars hword
      obtain ⟨fs, hfs⟩ := (Path.ofText_exact _).1.1 hproblems
      exact (hfs.kind_ne t ht).2 hkind
    exact ⟨iff_of_false (fun hread => hfaults hread.faultless) hword,
      .inr (isMisread_of_faults h hfaults)⟩

theorem constant_readsAsHandle_iff_width : ValueForm.ofText "$Width".toList = .constant ∧
    ∃ name, "$Width".toList = '$' :: name ∧ FollowsHandle "$Width".toList name := by
  have hform : ValueForm.ofText "$Width".toList = .constant := by decide +kernel
  obtain ⟨name, htext, -, -, hfollows | hmisread⟩ := constant_readsAsHandle_iff hform
  · exact ⟨hform, name, htext, hfollows.2⟩
  · exact absurd (by decide +kernel) hmisread.faults

/-- A name with an umlaut is an identifier, and no word of the expressions. -/
theorem umlaut_misread : ValueForm.ofText ('$' :: "Größe".toList) = .constant ∧
    (Path.ofText ('$' :: "Größe".toList)).problems ≠ [] ∧
      ¬ ReadsAsHandle ('$' :: "Größe".toList) "Größe".toList := by
  have hfaults : (Path.ofText ('$' :: "Größe".toList)).problems ≠ [] := by decide +kernel
  exact ⟨by decide +kernel, hfaults, fun hread => hfaults hread.faultless⟩

end Selector
end UILayout
