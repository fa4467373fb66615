import UILayout.Proofs.Selector.Cut

/-!
# UILayout.Proofs.Selector.Longest

The tokens of a text, said by the rules that accept them. A text is cut without leaving anything out,
each time behind the longest part of what remains that some rule accepts; a character at which no rule
accepts anything is cut off by itself.

* `Accepts`: the rules.
* `isNext_munch`: what is cut off is what the rules say.
* `tiles_scanFrom`: the spans of the tokens, one directly behind the other.
* `scan_exact`: all tokens of a text.
-/

namespace UILayout

namespace Text

/-- Spans of which none is empty and each begins where the one before ends, from `start` to `stop`. -/
def Tiles (start stop : Nat) : List Span → Prop
  | [] => start = stop
  | s :: rest => s.start = start ∧ s.start < s.stop ∧ Tiles s.stop stop rest

end Text

namespace Selector
namespace Token

open Text

/-! ## Rules -/

def Blank (c : Char) : Prop := c ∈ [' ', '\t', '\r', '\n']

def Word (c : Char) : Prop :=
  ('A' ≤ c ∧ c ≤ 'Z') ∨ ('a' ≤ c ∧ c ≤ 'z') ∨ ('0' ≤ c ∧ c ≤ '9') ∨ c = '_'

/-- What stands behind the dollar sign of a keyword. -/
def keywords : List (TokenKind × List Char) :=
  [(.this, ['t', 'h', 'i', 's']), (.parent, ['p', 'a', 'r', 'e', 'n', 't']),
    (.root, ['r', 'o', 'o', 't']), (.layer, ['l', 'a', 'y', 'e', 'r']),
    (.sibling, ['s', 'i', 'b', 'l', 'i', 'n', 'g']),
    (.ancestor, ['a', 'n', 'c', 'e', 's', 't', 'o', 'r'])]

def marks : List (TokenKind × Char) :=
  [(.slash, '/'), (.openBracket, '['), (.closeBracket, ']'), (.equals, '='), (.comma, ','),
    (.dot, '.'), (.atSign, '@'), (.minus, '-')]

/-- The rules, each for the texts of one kind of token. Every keyword is a handle, too. -/
inductive Accepts : TokenKind → List Char → Prop where
  | blank {text : List Char} (hne : text ≠ []) (hall : ∀ c ∈ text, Blank c) : Accepts .blank text
  | keyword {kind : TokenKind} {name : List Char} (h : (kind, name) ∈ keywords) :
      Accepts kind ('$' :: name)
  | handle {name : List Char} (hne : name ≠ []) (hall : ∀ c ∈ name, Word c) :
      Accepts .handle ('$' :: name)
  | ident {name : List Char} (hne : name ≠ []) (hall : ∀ c ∈ name, Word c) : Accepts .ident name
  | mark {kind : TokenKind} {c : Char} (h : (kind, c) ∈ marks) : Accepts kind [c]

/-- The longest part of `rest` from its front that a rule accepts, and the kind that it has then: of a
keyword and a handle it is the keyword. -/
structure Longest (rest : List Char) (kind : TokenKind) (text : List Char) : Prop where
  front : text <+: rest
  accepted : Accepts kind text
  longest : ∀ {other : TokenKind} {text' : List Char}, text' <+: rest → Accepts other text' →
    text'.length ≤ text.length
  preferred : ∀ {other : TokenKind}, Accepts other text →
    other = kind ∨ other = .handle ∧ kind ∈ keywords.map (·.1)

/-- What is cut off from the front of `rest`. -/
inductive IsNext (rest : List Char) : TokenKind → List Char → Prop where
  | accepted {kind : TokenKind} {text : List Char} (h : Longest rest kind text) :
      IsNext rest kind text
  | unknown {c : Char} (hfront : [c] <+: rest)
      (hnone : ∀ {kind : TokenKind} {text : List Char}, text <+: rest → ¬ Accepts kind text) :
      IsNext rest .unknown [c]

/-! ## What a first character allows -/

theorem isBlank_iff {c : Char} : isBlank c = true ↔ Blank c := by
  simp [isBlank, Blank, or_assoc]

theorem isWord_iff {c : Char} : isWord c = true ↔ Word c := by
  have hupper : c.isUpper = true ↔ 'A' ≤ c ∧ c ≤ 'Z' := decide_eq_true_iff
  have hlower : c.isLower = true ↔ 'a' ≤ c ∧ c ≤ 'z' :=
    Bool.and_eq_true_iff.trans (and_congr decide_eq_true_iff decide_eq_true_iff)
  have hdigit : c.isDigit = true ↔ '0' ≤ c ∧ c ≤ '9' :=
    Bool.and_eq_true_iff.trans (and_congr decide_eq_true_iff decide_eq_true_iff)
  have hclasses : isWord c = (c.isUpper || c.isLower || c.isDigit || decide (c = '_')) := rfl
  rw [hclasses, Bool.or_eq_true, Bool.or_eq_true, Bool.or_eq_true, decide_eq_true_iff, hupper, hlower,
    hdigit, or_assoc, or_assoc]
  rfl

theorem mem_marks_iff {kind : TokenKind} {c : Char} :
    (kind, c) ∈ marks ↔ kindOfMark c = kind ∧ kind ≠ .unknown := by
  constructor
  · intro h
    simp only [marks, List.mem_cons, Prod.mk.injEq, List.not_mem_nil, or_false] at h
    rcases h with ⟨rfl, rfl⟩ | ⟨rfl, rfl⟩ | ⟨rfl, rfl⟩ | ⟨rfl, rfl⟩ | ⟨rfl, rfl⟩ | ⟨rfl, rfl⟩ |
      ⟨rfl, rfl⟩ | ⟨rfl, rfl⟩ <;> decide
  · rintro ⟨rfl, hne⟩
    unfold kindOfMark at hne ⊢
    split_ifs at hne ⊢ <;> simp_all [marks]

theorem mem_keywords_iff {kind : TokenKind} {name : List Char} :
    (kind, name) ∈ keywords ↔ kindOfWord name = kind ∧ kind ≠ .handle := by
  constructor
  · intro h
    simp only [keywords, List.mem_cons, Prod.mk.injEq, List.not_mem_nil, or_false] at h
    rcases h with ⟨rfl, rfl⟩ | ⟨rfl, rfl⟩ | ⟨rfl, rfl⟩ | ⟨rfl, rfl⟩ | ⟨rfl, rfl⟩ | ⟨rfl, rfl⟩ <;>
      decide
  · rintro ⟨rfl, hne⟩
    unfold kindOfWord at hne ⊢
    split_ifs at hne ⊢ <;> simp_all [keywords]

theorem kindOfWord_ne_unknown (name : List Char) : kindOfWord name ≠ .unknown := by
  unfold kindOfWord
  split_ifs <;> decide

theorem word_of_mem_keywords {kind : TokenKind} {name : List Char} (h : (kind, name) ∈ keywords) :
    name ≠ [] ∧ ∀ c ∈ name, Word c := by
  have hall : ∀ e ∈ keywords, e.2 ≠ [] ∧ e.2.all isWord = true := by decide
  exact ⟨(hall _ h).1, fun c hc => isWord_iff.1 (List.all_eq_true.1 (hall _ h).2 c hc)⟩

namespace Accepts

variable {kind : TokenKind} {c : Char} {cs text : List Char}

theorem ne_nil (h : Accepts kind text) : text ≠ [] := by
  cases h with
  | blank hne _ => exact hne
  | ident hne _ => exact hne
  | _ => exact List.cons_ne_nil _ _

theorem kind_ne_unknown (h : Accepts kind text) : kind ≠ .unknown := by
  cases h with
  | keyword hmem =>
    rw [← (mem_keywords_iff.1 hmem).1]
    exact kindOfWord_ne_unknown _
  | mark hmem => exact (mem_marks_iff.1 hmem).2
  | _ => decide

/-- The first character tells which rules can accept a text. -/
theorem of_cons (h : Accepts kind (c :: cs)) :
    (isBlank c ∧ kind = .blank ∧ ∀ d ∈ c :: cs, isBlank d) ∨
      (isWord c ∧ kind = .ident ∧ ∀ d ∈ c :: cs, isWord d) ∨
      (c = '$' ∧ cs ≠ [] ∧ (∀ d ∈ cs, isWord d) ∧ (kind = .handle ∨ kind = kindOfWord cs)) ∨
      (cs = [] ∧ (kind, c) ∈ marks) := by
  cases h with
  | blank _ hall =>
    have hall' : ∀ d ∈ c :: cs, isBlank d := fun d hd => isBlank_iff.2 (hall d hd)
    exact .inl ⟨hall' c List.mem_cons_self, rfl, hall'⟩
  | ident _ hall =>
    have hall' : ∀ d ∈ c :: cs, isWord d := fun d hd => isWord_iff.2 (hall d hd)
    exact .inr (.inl ⟨hall' c List.mem_cons_self, rfl, hall'⟩)
  | handle hne hall =>
    exact .inr (.inr (.inl ⟨rfl, hne, fun d hd => isWord_iff.2 (hall d hd), .inl rfl⟩))
  | keyword hmem =>
    obtain ⟨hne, hall⟩ := word_of_mem_keywords hmem
    exact .inr (.inr (.inl ⟨rfl, hne, fun d hd => isWord_iff.2 (hall d hd),
      .inr (mem_keywords_iff.1 hmem).1.symm⟩))
  | mark hmem => exact .inr (.inr (.inr ⟨rfl, hmem⟩))

end Accepts

/-- No mark belongs to a longer token. -/
theorem of_mem_marks {kind : TokenKind} {c : Char} (h : (kind, c) ∈ marks) :
    isBlank c = false ∧ isWord c = false ∧ c ≠ '$' := by
  have hall : ∀ e ∈ marks, isBlank e.2 = false ∧ isWord e.2 = false ∧ e.2 ≠ '$' := by decide
  exact hall _ h

/-! ## The longest part -/

section

variable {kind : TokenKind} {c : Char} {cs text : List Char}

theorem prefix_takeWhile {P : Char → Bool} {part whole : List Char} (hfront : part <+: whole)
    (hall : ∀ c ∈ part, P c) : part <+: whole.takeWhile P := by
  obtain ⟨more, rfl⟩ := hfront
  rw [List.takeWhile_append_of_pos hall]
  exact List.prefix_append _ _

/-- Where a run of characters of one class is accepted, and with its first character nothing but such
runs, the whole run is cut off. -/
theorem longest_run {P : Char → Bool} (hc : P c)
    (haccepts : ∀ text, text ≠ [] → (∀ d ∈ text, P d) → Accepts kind text)
    (honly : ∀ {other : TokenKind} {text : List Char}, Accepts other (c :: text) →
      other = kind ∧ ∀ d ∈ c :: text, P d) :
    Longest (c :: cs) kind (c :: cs.takeWhile P) := by
  have hrun : c :: cs.takeWhile P = (c :: cs).takeWhile P := (List.takeWhile_cons_of_pos hc).symm
  refine ⟨hrun ▸ List.takeWhile_prefix P, ?_, ?_, fun h => .inl (honly h).1⟩
  · refine haccepts _ (List.cons_ne_nil _ _) fun d hd => ?_
    rw [hrun] at hd
    exact List.mem_takeWhile_imp hd
  · intro other text' hfront haccepted
    obtain rfl | ⟨ds, rfl, hds⟩ := List.prefix_cons_iff.1 hfront
    · exact absurd rfl haccepted.ne_nil
    rw [hrun]
    exact (prefix_takeWhile hfront (honly haccepted).2).length_le

/-- Behind a dollar sign, the whole word belongs to the token. -/
theorem longest_dollar (h : cs.takeWhile isWord ≠ []) :
    Longest ('$' :: cs) (kindOfWord (cs.takeWhile isWord)) ('$' :: cs.takeWhile isWord) := by
  have hword : ∀ d ∈ cs.takeWhile isWord, Word d := fun d hd => isWord_iff.1 (List.mem_takeWhile_imp hd)
  have honly : ∀ {other : TokenKind} {name : List Char}, Accepts other ('$' :: name) →
      (∀ d ∈ name, isWord d) ∧ (other = .handle ∨ other = kindOfWord name) := by
    intro other name haccepted
    rcases haccepted.of_cons with ⟨hc, -⟩ | ⟨hc, -⟩ | ⟨-, -, hall, hkind⟩ | ⟨-, hmem⟩
    · exact absurd hc (by decide)
    · exact absurd hc (by decide)
    · exact ⟨hall, hkind⟩
    · exact absurd rfl (of_mem_marks hmem).2.2
  refine ⟨List.cons_prefix_cons.2 ⟨rfl, List.takeWhile_prefix _⟩, ?_, ?_, ?_⟩
  · by_cases hkind : kindOfWord (cs.takeWhile isWord) = .handle
    · rw [hkind]
      exact .handle h hword
    · exact .keyword (mem_keywords_iff.2 ⟨rfl, hkind⟩)
  · intro other text' hfront haccepted
    obtain rfl | ⟨name, rfl, hname⟩ := List.prefix_cons_iff.1 hfront
    · exact absurd rfl haccepted.ne_nil
    exact Nat.succ_le_succ (prefix_takeWhile hname (honly haccepted).1).length_le
  · intro other haccepted
    by_cases hkind : other = kindOfWord (cs.takeWhile isWord)
    · exact .inl hkind
    · have hhandle := (honly haccepted).2.resolve_right hkind
      refine .inr ⟨hhandle, List.mem_map.2 ⟨_, mem_keywords_iff.2 ⟨rfl, ?_⟩, rfl⟩⟩
      exact fun heq => hkind (hhandle.trans heq.symm)

/-- A character that begins neither a run nor a word behind a dollar sign stands by itself. -/
theorem isNext_mark (hblank : isBlank c = false) (hword : isWord c = false) (hdollar : c ≠ '$') :
    IsNext (c :: cs) (kindOfMark c) [c] := by
  have honly : ∀ {other : TokenKind} {ds : List Char}, Accepts other (c :: ds) →
      ds = [] ∧ (other, c) ∈ marks := by
    intro other ds haccepted
    rcases haccepted.of_cons with ⟨hc, -⟩ | ⟨hc, -⟩ | ⟨hc, -⟩ | hmark
    · rw [hblank] at hc
      cases hc
    · rw [hword] at hc
      cases hc
    · exact absurd hc hdollar
    · exact hmark
  have hfront : [c] <+: c :: cs := List.cons_prefix_cons.2 ⟨rfl, List.nil_prefix⟩
  by_cases hkind : kindOfMark c = .unknown
  · rw [hkind]
    refine .unknown hfront fun hfront' haccepted => ?_
    obtain rfl | ⟨ds, rfl, -⟩ := List.prefix_cons_iff.1 hfront'
    · exact haccepted.ne_nil rfl
    · obtain ⟨hmark, hne⟩ := mem_marks_iff.1 (honly haccepted).2
      exact hne (hmark.symm.trans hkind)
  · refine .accepted ⟨hfront, .mark (mem_marks_iff.2 ⟨rfl, hkind⟩), ?_, ?_⟩
    · intro other text' hfront' haccepted
      obtain rfl | ⟨ds, rfl, -⟩ := List.prefix_cons_iff.1 hfront'
      · exact absurd rfl haccepted.ne_nil
      · rw [(honly haccepted).1]
    · exact fun haccepted => .inl (mem_marks_iff.1 (honly haccepted).2).1.symm

theorem isNext_dollar (h : cs.takeWhile isWord = []) : IsNext ('$' :: cs) .unknown ['$'] := by
  refine .unknown (List.cons_prefix_cons.2 ⟨rfl, List.nil_prefix⟩) fun hfront haccepted => ?_
  obtain rfl | ⟨name, rfl, hname⟩ := List.prefix_cons_iff.1 hfront
  · exact haccepted.ne_nil rfl
  rcases haccepted.of_cons with ⟨hc, -⟩ | ⟨hc, -⟩ | ⟨-, hne, hall, -⟩ | ⟨-, hmem⟩
  · exact absurd hc (by decide)
  · exact absurd hc (by decide)
  · -- the word would be a part of the run that is empty
    have hrun := prefix_takeWhile hname hall
    rw [h] at hrun
    exact hne (List.prefix_nil.1 hrun)
  · exact (of_mem_marks hmem).2.2 rfl

/-- What is cut off is what the rules say. -/
theorem isNext_munch (c : Char) (cs : List Char) : IsNext (c :: cs) (munch c cs).1 (munch c cs).2.1 := by
  by_cases hblank : isBlank c
  · have hmunch : munch c cs = (.blank, c :: cs.takeWhile isBlank, cs.dropWhile isBlank) := if_pos hblank
    rw [hmunch]
    refine .accepted (longest_run hblank
      (fun _ hne hall => .blank hne fun d hd => isBlank_iff.1 (hall d hd)) fun haccepted => ?_)
    rcases haccepted.of_cons with ⟨-, h⟩ | ⟨hc, -⟩ | ⟨hc, -⟩ | ⟨-, hmem⟩
    · exact h
    · exact absurd hblank (not_isBlank_of_isWord hc)
    · subst hc
      exact absurd hblank (by decide)
    · exact absurd hblank (Bool.eq_false_iff.1 (of_mem_marks hmem).1)
  by_cases hword : isWord c
  · have hmunch : munch c cs = (.ident, c :: cs.takeWhile isWord, cs.dropWhile isWord) :=
      (if_neg hblank).trans (if_pos hword)
    rw [hmunch]
    refine .accepted (longest_run hword
      (fun _ hne hall => .ident hne fun d hd => isWord_iff.1 (hall d hd)) fun haccepted => ?_)
    rcases haccepted.of_cons with ⟨hc, -⟩ | ⟨-, h⟩ | ⟨hc, -⟩ | ⟨-, hmem⟩
    · exact absurd hc hblank
    · exact h
    · subst hc
      exact absurd hword (by decide)
    · exact absurd hword (Bool.eq_false_iff.1 (of_mem_marks hmem).2.1)
  by_cases hdollar : c = '$'
  · subst hdollar
    rcases munch_dollar cs with ⟨hnone, hmunch⟩ | ⟨hsome, hmunch⟩
    · rw [hmunch]
      exact isNext_dollar hnone
    · rw [hmunch]
      exact .accepted (longest_dollar hsome)
  · have hmunch : munch c cs = (kindOfMark c, [c], cs) :=
      (if_neg hblank).trans ((if_neg hword).trans (if_neg hdollar))
    rw [hmunch]
    exact isNext_mark (Bool.eq_false_iff.2 hblank) (Bool.eq_false_iff.2 hword) hdollar

end

/-! ## All tokens -/

theorem tiles_scanFrom (pos : Nat) (cs : List Char) :
    Tiles pos (pos + byteLength cs) ((scanFrom pos cs).map (·.span)) := by
  induction pos, cs using scan_induct with
  | nil pos =>
    rw [scanFrom]
    rfl
  | cons pos c cs ih =>
    rw [scanFrom_cons]
    have hlength := congrArg byteLength (munch_append c cs)
    have hpos : 0 < byteLength (munch c cs).2.1 := by
      cases htext : (munch c cs).2.1 with
      | nil => exact absurd htext (munch_ne_nil c cs)
      | cons d ds => exact Nat.lt_of_lt_of_le d.utf8Size_pos (Nat.le_add_right _ _)
    rw [byteLength_append] at hlength
    rw [← hlength, ← Nat.add_assoc]
    exact ⟨rfl, Nat.lt_add_of_pos_right hpos, ih⟩

/-- A token stands where its span says, and is what the rules make of the text from there on. -/
theorem of_mem_scan {text : List Char} {t : Token} (h : t ∈ scan text) :
    slice? text t.span.start t.span.stop = some t.text.toList ∧
      ∃ rest, dropBytes? t.span.start text = some rest ∧ IsNext rest t.kind t.text.toList := by
  obtain ⟨front, rest, hscan⟩ := List.append_of_mem h
  obtain ⟨before, after, rfl, -, hafter⟩ := scanFrom_split hscan
  cases after with
  | nil =>
    rw [scanFrom] at hafter
    cases hafter
  | cons c cs =>
    rw [scanFrom_cons, List.cons.injEq] at hafter
    obtain ⟨rfl, -⟩ := hafter
    simp only [String.toList_ofList, Nat.zero_add]
    refine ⟨?_, c :: cs, dropBytes?_append before (c :: cs), isNext_munch c cs⟩
    rw [← munch_append c cs]
    exact slice?_append before _ _

/-- The tokens of a text: their spans are not empty and go from its start to its end without a gap, and
each of them stands where its span says. A token that some rule accepts is the longest part that one
accepts there, a keyword and no handle if it can be both; any other is one character at which no rule
accepts anything. The grammar sees all of them but the blanks. -/
theorem scan_exact (text : List Char) :
    Tiles 0 (byteLength text) ((scan text).map (·.span)) ∧
    (∀ t ∈ scan text, slice? text t.span.start t.span.stop = some t.text.toList ∧
      ∃ rest, dropBytes? t.span.start text = some rest ∧
        (t.kind ≠ .unknown → Longest rest t.kind t.text.toList) ∧
        (t.kind = .unknown → (∃ c, t.text.toList = [c] ∧ [c] <+: rest) ∧
          ∀ kind part, part <+: rest → ¬ Accepts kind part)) ∧
    tokens text = (scan text).filter (·.kind ≠ .blank) := by
  refine ⟨?_, ?_, rfl⟩
  · have htiles := tiles_scanFrom 0 text
    rwa [Nat.zero_add] at htiles
  · intro t ht
    obtain ⟨hslice, rest, hrest, hnext⟩ := of_mem_scan ht
    refine ⟨hslice, rest, hrest, ?_⟩
    generalize t.kind = kind at hnext ⊢
    generalize t.text.toList = part at hnext ⊢
    cases hnext with
    | accepted h => exact ⟨fun _ => h, fun hkind => absurd hkind h.accepted.kind_ne_unknown⟩
    | unknown hfront hnone =>
      exact ⟨fun hkind => absurd rfl hkind, fun _ => ⟨⟨_, rfl, hfront⟩, fun _ _ => hnone⟩⟩

end Token
end Selector
end UILayout
