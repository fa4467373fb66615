import Mathlib.Data.List.Forall2
import Mathlib.Data.List.Nodup
import Mathlib.Data.List.TakeWhile
import UILayout.Proofs.Markup.Reading
import UILayout.Proofs.Text.Parts

/-!
# UILayout.Proofs.Markup.Places

Where the attributes of a start tag stand. The keys and values of a tag are cut from its content by one
reader, and their places are found in the raw tag by another one, which knows other blanks and stops at
other characters. They stay in step while every key is one that the second can walk to its end.

* `nextPair_spec`: how a pair is written in the content of a tag.
* `Locator.next_of_plain`, `Locator.plain_of_next`: the locator finds a pair where it is written just
  when its key is plain, and then it stops behind it.
* `Document.brackets_iff`: the places of all attributes of an element are right just when all their
  keys are plain.
-/

namespace UILayout
namespace Markup

open Text

/-! ## Runs of characters -/

section

variable {P : Char → Bool} {c : Char} {cs run rest : List Char}

/-- A text splits behind the run that it starts with, in front of the first character that is not of
its kind. -/
theorem exists_run (h : cs.dropWhile P = c :: rest) :
    ∃ run, cs.takeWhile P = run ∧ cs = run ++ c :: rest ∧ (∀ d ∈ run, P d) ∧ ¬ P c := by
  refine ⟨_, rfl, ?_, fun d => List.mem_takeWhile_imp, ?_⟩
  · rw [← h, List.takeWhile_append_dropWhile]
  · have hne : cs.dropWhile P ≠ [] := by simp [h]
    simpa [h] using List.head_dropWhile_not P hne

theorem takeWhile_run (hrun : ∀ c ∈ run, P c) (hrest : ∀ c ∈ rest.head?, ¬ P c) :
    (run ++ rest).takeWhile P = run := by
  rw [List.takeWhile_append_of_pos hrun]
  cases rest with
  | nil => simp
  | cons c rest => simp [hrest c rfl]

theorem dropWhile_run (hrun : ∀ c ∈ run, P c) (hrest : ∀ c ∈ rest.head?, ¬ P c) :
    (run ++ rest).dropWhile P = rest := by
  rw [List.dropWhile_append_of_pos hrun]
  cases rest with
  | nil => rfl
  | cons c rest => simp [hrest c rfl]

end

theorem utf8Size_of_blank {c : Char} (h : Locator.isBlank c) : c.utf8Size = 1 := by
  simp only [Locator.isBlank, isTagBlank, Bool.or_eq_true, decide_eq_true_eq] at h
  rcases h with (((rfl | rfl) | rfl) | rfl) | rfl <;> rfl

theorem byteLength_of_blank {b : List Char} (h : ∀ c ∈ b, Locator.isBlank c) :
    byteLength b = b.length := by
  induction b with
  | nil => rfl
  | cons c b ih =>
    rw [byteLength_cons, utf8Size_of_blank (h c List.mem_cons_self),
      ih fun c' hc => h c' (List.mem_cons_of_mem _ hc), List.length_cons, Nat.add_comm]

theorem isBlank_of_isTagBlank {c : Char} (h : isTagBlank c) : Locator.isBlank c := by
  simp [Locator.isBlank, h]

/-! ## How pairs are written -/

/-- What stands around the key and the value of a pair. -/
structure Spacing where
  afterKey : List Char
  afterEquals : List Char
  quote : Char

/-- A key and all up to the opening quote of its value. -/
def RawPair.lead (p : RawPair) (s : Spacing) : List Char :=
  p.key ++ s.afterKey ++ '=' :: s.afterEquals

def RawPair.written (p : RawPair) (s : Spacing) : List Char :=
  p.lead s ++ s.quote :: p.value ++ [s.quote]

/-- A key starts with anything but a blank, and ends in front of a blank or an `=`. -/
def IsKey : List Char → Prop
  | [] => False
  | k :: ks => ¬ isTagBlank k ∧ ∀ c ∈ ks, c ≠ '=' ∧ ¬ isTagBlank c

structure Spacing.Fits (s : Spacing) (p : RawPair) : Prop where
  key : IsKey p.key
  afterKey : ∀ c ∈ s.afterKey, isTagBlank c
  afterEquals : ∀ c ∈ s.afterEquals, isTagBlank c
  quote : s.quote = '"' ∨ s.quote = '\''
  value : s.quote ∉ p.value

namespace StartTag

theorem quotedValue_spec {length k position next : Nat} {key cs rest : List Char} {p : RawPair}
    (h : quotedValue length key k position cs = .ok (.pair p next rest)) :
    ∃ blanks q, cs = blanks ++ q :: p.value ++ q :: rest ∧ (∀ c ∈ blanks, isTagBlank c) ∧
      (q = '"' ∨ q = '\'') ∧ q ∉ p.value ∧ p.key = key ∧ p.position = k ∧
      next = position + blanks.length + byteLength p.value + 2 := by
  unfold quotedValue at h
  split at h
  · cases h
  · rename_i q inner hcs
    obtain ⟨blanks, hrun, rfl, hblanks, -⟩ := exists_run hcs
    rw [hrun] at h
    split at h
    · rename_i hq
      split at h
      · cases h
      · rename_i c rest' hinner
        obtain ⟨value, hrun', rfl, hvalue, hc⟩ := exists_run hinner
        obtain rfl : c = q := by simpa using hc
        rw [hrun'] at h
        cases h
        refine ⟨blanks, c, by simp, hblanks, hq, fun hmem => ?_, rfl, rfl, rfl⟩
        simpa using hvalue c hmem
    · cases h

theorem nextPair_spec {length position next : Nat} {seen : List (List Char × Nat)}
    {cs rest : List Char} {p : RawPair}
    (h : nextPair length seen position cs = .ok (.pair p next rest)) :
    ∃ blanks s, cs = blanks ++ p.written s ++ rest ∧ (∀ c ∈ blanks, isTagBlank c) ∧ s.Fits p ∧
      p.position = position + byteLength blanks ∧
      next = position + byteLength (blanks ++ p.written s) ∧ ∀ q ∈ seen, q.1 ≠ p.key := by
  unfold nextPair at h
  split at h
  · cases h
  · rename_i k ks hcs
    obtain ⟨blanks, hrun, rfl, hblanks, hk⟩ := exists_run hcs
    rw [hrun] at h
    dsimp only at h
    split at h
    · cases h
    · rename_i e behind hbehind
      obtain ⟨afterKey, hrun', hafter, hafterKey, -⟩ := exists_run hbehind
      rw [hrun'] at h
      split at h
      · rename_i he
        subst he
        split at h
        · cases h
        · rename_i hseen
          obtain ⟨afterEquals, q, rfl, hafterEquals, hq, hvalue, hkey, hposition, hnext⟩ :=
            quotedValue_spec h
          have hlength : ∀ {b : List Char}, (∀ c ∈ b, isTagBlank c) → byteLength b = b.length :=
            fun hb => byteLength_of_blank fun c hc => isBlank_of_isTagBlank (hb c hc)
          have hquote : q.utf8Size = 1 := by rcases hq with rfl | rfl <;> rfl
          have hequals : '='.utf8Size = 1 := rfl
          refine ⟨blanks, ⟨afterKey, afterEquals, q⟩, ?_, hblanks,
            ⟨?_, hafterKey, hafterEquals, hq, hvalue⟩, ?_, ?_, ?_⟩
          · have hks := List.takeWhile_append_dropWhile
              (p := fun c => c ≠ '=' && !isTagBlank c) (l := ks)
            rw [hafter] at hks
            simpa [RawPair.written, RawPair.lead, hkey] using hks.symm
          · rw [hkey]
            exact ⟨hk, fun c hc => by simpa using List.mem_takeWhile_imp hc⟩
          · rw [hposition, hlength hblanks]
          · simp [hnext, RawPair.written, RawPair.lead, hkey, hlength hblanks, hlength hafterKey,
              hlength hafterEquals, hquote, hequals]
            omega
          · intro previous hmem hsame
            rw [List.find?_eq_none] at hseen
            exact hseen previous hmem (by simp [hsame, hkey])
      · cases h

end StartTag

/-! ## Walking over a pair -/

/-- A key that the locator walks to its end: characters of names, and behind them nothing but what it
takes for blanks. -/
def PlainKey (key : List Char) : Prop :=
  key.takeWhile Locator.isNameChar ≠ [] ∧ ∀ c ∈ key.dropWhile Locator.isNameChar, Locator.isBlank c

namespace Locator

theorem skipBlanks_run {position : Nat} {blanks rest : List Char}
    (hblanks : ∀ c ∈ blanks, isBlank c) (hrest : ∀ c ∈ rest.head?, ¬ isBlank c) :
    skipBlanks ⟨position, 0, blanks ++ rest⟩ = ⟨position + blanks.length, 0, rest⟩ := by
  simp [skipBlanks, takeWhile_run hblanks hrest, dropWhile_run hblanks hrest]

theorem value_quoted {position start : Nat} {q : Char} {blanks content rest : List Char}
    (hblanks : ∀ c ∈ blanks, isBlank c) (hq : q = '"' ∨ q = '\'') (hcontent : q ∉ content) :
    value ⟨position, 0, blanks ++ q :: (content ++ q :: rest)⟩ start =
      (some ⟨start, position + blanks.length, position + blanks.length + byteLength content + 2⟩,
        ⟨position + blanks.length + byteLength content + 2, 0, rest⟩) := by
  have hskip : skipBlanks ⟨position, 0, blanks ++ q :: (content ++ q :: rest)⟩ =
      ⟨position + blanks.length, 0, q :: (content ++ q :: rest)⟩ :=
    skipBlanks_run hblanks (by rcases hq with rfl | rfl <;> simp [isBlank, isTagBlank])
  have hrun : ∀ c ∈ content, (c ≠ q : Bool) := by
    intro c hc
    have hne : c ≠ q := fun hcq => hcontent (hcq ▸ hc)
    simpa using hne
  have hstop : ∀ c ∈ (q :: rest).head?, ¬ (c ≠ q : Bool) := by simp
  simp only [value, hskip, if_pos hq, takeWhile_run hrun hstop, dropWhile_run hrun hstop]
  simp
  omega

/-- What `next` does with a name, blanks behind it, and what stands behind those. -/
theorem next_run {position : Nat} {blanks name behind rest : List Char} {e : Char}
    (hblanks : ∀ c ∈ blanks, isBlank c) (hname : ∀ c ∈ name, isNameChar c) (hne : name ≠ [])
    (hstop : ∀ c ∈ (behind ++ e :: rest).head?, ¬ isNameChar c)
    (hbehind : ∀ c ∈ behind, isBlank c) (he : ¬ isBlank e) :
    next ⟨position, 0, blanks ++ (name ++ (behind ++ e :: rest))⟩ =
      if e = '=' then
        value ⟨position + blanks.length + byteLength name + behind.length + 1, 0, rest⟩
          (position + blanks.length)
      else
        (none, ⟨position + blanks.length + byteLength name + behind.length, 0, e :: rest⟩) := by
  have hfirst : ∀ c ∈ (name ++ (behind ++ e :: rest)).head?, ¬ isBlank c := by
    cases name with
    | nil => exact absurd rfl hne
    | cons n name =>
      have hn := hname n List.mem_cons_self
      simp only [isNameChar, Bool.and_eq_true, Bool.not_eq_true'] at hn
      simp [hn]
  have hlast : ∀ c ∈ (e :: rest).head?, ¬ isBlank c := by simpa using he
  simp [next, skipBlanks_run hblanks hfirst, takeWhile_run hname hstop, dropWhile_run hname hstop,
    hne, skipBlanks_run hbehind hlast]

/-- A place starts where the blanks before it end. -/
theorem start_of_next {l : Locator} {place : Place} (h : l.next.1 = some place) :
    place.start = l.skipBlanks.position := by
  unfold next at h
  dsimp only at h
  split at h
  · cases h
  · split at h
    · cases h
    · split at h
      · unfold value at h
        dsimp only at h
        split at h
        · cases h
        · split at h
          · cases h
            rfl
          · cases h
      · cases h

theorem not_isNameChar_of_isBlank {c : Char} (h : isBlank c) : ¬ isNameChar c := by
  simp [isNameChar, h]

/-- A plain key is found with its value, and the locator goes on behind them. -/
theorem next_of_plain {position : Nat} {blanks rest : List Char} {p : RawPair} {s : Spacing}
    (hblanks : ∀ c ∈ blanks, isBlank c) (hfits : s.Fits p) (hplain : PlainKey p.key) :
    next ⟨position, 0, blanks ++ p.written s ++ rest⟩ =
      (some ⟨position + byteLength blanks, position + byteLength (blanks ++ p.lead s),
          position + byteLength (blanks ++ p.written s)⟩,
        ⟨position + byteLength (blanks ++ p.written s), 0, rest⟩) := by
  obtain ⟨hne, hfeeds⟩ := hplain
  have hname : ∀ c ∈ p.key.takeWhile isNameChar, isNameChar c := fun c => List.mem_takeWhile_imp
  have hkey := List.takeWhile_append_dropWhile (p := isNameChar) (l := p.key)
  generalize p.key.takeWhile isNameChar = name at *
  generalize p.key.dropWhile isNameChar = feeds at *
  have hbehind : ∀ c ∈ feeds ++ s.afterKey, isBlank c := by
    intro c hc
    rcases List.mem_append.1 hc with hc | hc
    · exact hfeeds c hc
    · exact isBlank_of_isTagBlank (hfits.afterKey c hc)
  have hafter : ∀ c ∈ s.afterEquals, isBlank c := fun c hc =>
    isBlank_of_isTagBlank (hfits.afterEquals c hc)
  have hstop : ∀ c ∈ (feeds ++ s.afterKey ++ '=' :: (s.afterEquals ++ s.quote :: (p.value ++
      s.quote :: rest))).head?, ¬ isNameChar c := by
    cases hrun : feeds ++ s.afterKey with
    | nil => simp [isNameChar]
    | cons b run =>
      rw [hrun] at hbehind
      simpa using not_isNameChar_of_isBlank (hbehind b List.mem_cons_self)
  have htext : blanks ++ p.written s ++ rest = blanks ++ (name ++ (feeds ++ s.afterKey ++
      '=' :: (s.afterEquals ++ s.quote :: (p.value ++ s.quote :: rest)))) := by
    simp [RawPair.written, RawPair.lead, ← hkey]
  have hquote : s.quote.utf8Size = 1 := by rcases hfits.quote with h | h <;> rw [h] <;> rfl
  have hequals : '='.utf8Size = 1 := rfl
  rw [htext, next_run hblanks hname hne hstop hbehind (by decide), if_pos rfl,
    value_quoted hafter hfits.quote hfits.value]
  have hlengths := byteLength_of_blank hbehind
  rw [byteLength_append, List.length_append] at hlengths
  simp only [RawPair.written, RawPair.lead, ← hkey, byteLength_append, byteLength_cons, byteLength_nil,
    byteLength_of_blank hblanks, byteLength_of_blank hafter, hquote, hequals, List.length_append,
    Prod.mk.injEq, Option.some.injEq, Place.mk.injEq, Locator.mk.injEq, true_and, and_true]
  omega

/-- The locator finds nothing where it stops inside a key, and goes on from there. -/
theorem next_inside {position : Nat} {blanks ks behind : List Char} {k : Char}
    (hblanks : ∀ c ∈ blanks, isBlank c) (hk : isNameChar k) (hks : ∀ c ∈ ks, c ≠ '=')
    (hfeeds : ¬ ∀ c ∈ (k :: ks).dropWhile isNameChar, isBlank c) :
    ∃ front e inner, ks = front ++ e :: inner ∧ ¬ isBlank e ∧
      next ⟨position, 0, blanks ++ k :: (ks ++ behind)⟩ =
        (none, ⟨position + byteLength (blanks ++ k :: front), 0, e :: (inner ++ behind)⟩) := by
  rw [← List.dropWhile_eq_nil_iff] at hfeeds
  obtain ⟨e, inner, hinner⟩ := List.exists_cons_of_ne_nil hfeeds
  obtain ⟨run, -, hrun, hrunBlank, he⟩ := exists_run hinner
  have hname : ∀ c ∈ (k :: ks).takeWhile isNameChar, isNameChar c := fun c =>
    List.mem_takeWhile_imp
  have hstop : ∀ c ∈ (run ++ e :: (inner ++ behind)).head?, ¬ isNameChar c := by
    have hhead := List.head?_dropWhile_not isNameChar (k :: ks)
    rw [hrun] at hhead
    cases run <;> simpa using hhead
  have hsplit := List.takeWhile_append_dropWhile (p := isNameChar) (l := k :: ks)
  rw [hrun, List.takeWhile_cons_of_pos hk] at hsplit
  rw [List.takeWhile_cons_of_pos hk] at hname
  obtain ⟨name, hrunName⟩ : ∃ name, ks.takeWhile isNameChar = name := ⟨_, rfl⟩
  rw [hrunName] at hsplit hname
  have hks' : ks = name ++ run ++ e :: inner := by simpa using (List.cons.inj hsplit).2.symm
  have hequals : e ≠ '=' := hks e (by simp [hks'])
  have hcut : k :: (ks ++ behind) = k :: name ++ (run ++ e :: (inner ++ behind)) := by simp [hks']
  refine ⟨name ++ run, e, inner, hks', he, ?_⟩
  rw [hcut, next_run hblanks hname (by simp) hstop hrunBlank he, if_neg hequals]
  simp only [byteLength_append, byteLength_cons, byteLength_of_blank hblanks,
    byteLength_of_blank hrunBlank, Nat.add_assoc]

/-- A key is plain when the locator finds something where it stands. -/
theorem plain_of_next {position : Nat} {blanks rest : List Char} {p : RawPair} {s : Spacing}
    {place : Place} (hblanks : ∀ c ∈ blanks, isBlank c) (hfits : s.Fits p)
    (h : (next ⟨position, 0, blanks ++ p.written s ++ rest⟩).1 = some place)
    (hstart : place.start = position + byteLength blanks) : PlainKey p.key := by
  have hkey := hfits.key
  cases hks : p.key with
  | nil => simp [hks, IsKey] at hkey
  | cons k ks =>
    obtain ⟨-, hks'⟩ : ¬ isTagBlank k ∧ ∀ c ∈ ks, c ≠ '=' ∧ ¬ isTagBlank c := by rwa [hks] at hkey
    have htext : blanks ++ p.written s ++ rest = blanks ++ (k :: (ks ++ (s.afterKey ++
        '=' :: (s.afterEquals ++ s.quote :: (p.value ++ s.quote :: rest))))) := by
      simp [RawPair.written, RawPair.lead, hks]
    rw [htext] at h
    generalize s.afterKey ++ '=' :: (s.afterEquals ++ s.quote :: (p.value ++ s.quote :: rest)) =
      behind at h
    by_cases hk : isNameChar k
    · refine ⟨by simp [hk], ?_⟩
      by_contra hfeeds
      obtain ⟨_, _, _, -, -, hnone⟩ := @next_inside position blanks ks behind k hblanks hk
        (fun c hc => (hks' c hc).1) hfeeds
      rw [hnone] at h
      cases h
    · by_cases hblank : isBlank k
      · -- the walk starts behind the first character of the key
        rw [start_of_next h, byteLength_of_blank hblanks] at hstart
        simp [skipBlanks, List.takeWhile_append_of_pos hblanks, hblank] at hstart
      · have hskip : skipBlanks ⟨position, 0, blanks ++ k :: (ks ++ behind)⟩ =
            ⟨position + blanks.length, 0, k :: (ks ++ behind)⟩ :=
          skipBlanks_run hblanks (by simpa using hblank)
        simp [next, hskip, hk] at h

end Locator

/-! ## The attributes of a tag -/

/-- The pairs that are read from a content of `length` bytes, of which `cs` is left from `position`
on, behind the keys in `seen`. -/
inductive StartTag.Yields (length : Nat) :
    List (List Char × Nat) → Nat → List Char → List RawPair → Prop where
  | done {seen : List (List Char × Nat)} {position : Nat} {cs : List Char} :
      nextPair length seen position cs = .ok .done → Yields length seen position cs []
  | pair {seen : List (List Char × Nat)} {position next : Nat} {cs rest : List Char} {p : RawPair}
      {ps : List RawPair} : nextPair length seen position cs = .ok (.pair p next rest) →
      Yields length ((p.key, p.position) :: seen) next rest ps → Yields length seen position cs (p :: ps)

/-- An attribute has the name of a pair, and the value that the text between its quotes writes. -/
def RawPair.Gives (p : RawPair) (a : Attribute) : Prop :=
  a.name = String.ofList p.key ∧ Reference.unescape p.value = .ok a.value.toList

/-- An attribute is placed where its pair is written in the tag `raw`, which starts at `base`: its start
is that of the key, its value starts at the opening quote, and it ends behind the closing quote. -/
def Brackets (raw : List Char) (base : Nat) (p : RawPair) (a : Attribute) : Prop :=
  ∃ before s after, raw = before ++ p.written s ++ after ∧ s.Fits p ∧
    byteLength before = 1 + p.position ∧ a.start = base + byteLength before ∧
    a.valueStart = base + byteLength (before ++ p.lead s) ∧
    a.stop = base + byteLength (before ++ p.written s)

/-- The locator stands where the content that is left begins. The content starts behind the `<`. -/
structure Synced (raw : List Char) (l : Locator) (position : Nat) (cs : List Char) : Prop where
  torn : l.torn = 0
  passed : l.position = 1 + position
  text : ∃ before after, raw = before ++ (cs ++ after) ∧ byteLength before = 1 + position ∧
    l.rest = cs ++ after

section

variable {raw cs rest : List Char} {length position next base : Nat} {p : RawPair}
  {seen : List (List Char × Nat)} {l : Locator}

theorem Synced.of_plain (h : Synced raw l position cs)
    (hp : StartTag.nextPair length seen position cs = .ok (.pair p next rest))
    (hplain : PlainKey p.key) :
    Synced raw l.next.2 next rest ∧ ∃ place, l.next.1 = some place ∧
      ∀ (base : Nat) (a : Attribute), a.start = base + place.start →
        a.valueStart = base + place.valueStart → a.stop = base + place.stop →
        Brackets raw base p a := by
  obtain ⟨blanks, s, rfl, hblanks, hfits, hposition, hnext, -⟩ := StartTag.nextPair_spec hp
  obtain ⟨before, after, hraw, hbefore, hrest⟩ := h.text
  have hl : l = ⟨1 + position, 0, blanks ++ p.written s ++ (rest ++ after)⟩ := by
    rw [← h.passed, ← h.torn, ← List.append_assoc, ← hrest]
  have hwalk := @Locator.next_of_plain (1 + position) blanks (rest ++ after) p s
    (fun c hc => isBlank_of_isTagBlank (hblanks c hc)) hfits hplain
  rw [hl, hwalk]
  refine ⟨⟨rfl, ?_, before ++ (blanks ++ p.written s), after, ?_, ?_, rfl⟩, _, rfl, ?_⟩
  · simp only [hnext, Nat.add_assoc]
  · rw [hraw]
    simp
  · rw [byteLength_append, hbefore, hnext, Nat.add_assoc]
  · intro base a hstart hvalue hstop
    refine ⟨before ++ blanks, s, rest ++ after, ?_, hfits, ?_, ?_, ?_, ?_⟩
    · rw [hraw]
      simp
    · rw [byteLength_append, hbefore, hposition, Nat.add_assoc]
    · simp [hstart, hbefore, Nat.add_assoc]
    · simp [hvalue, hbefore, Nat.add_assoc]
    · simp [hstop, hbefore, Nat.add_assoc]

theorem Synced.plain_of_brackets (h : Synced raw l position cs)
    (hp : StartTag.nextPair length seen position cs = .ok (.pair p next rest)) {a : Attribute}
    (ha : a.start = base + (l.next.1.getD ⟨0, 0, 0⟩).start) (hbrackets : Brackets raw base p a) :
    PlainKey p.key := by
  obtain ⟨blanks, s, rfl, hblanks, hfits, hposition, -, -⟩ := StartTag.nextPair_spec hp
  obtain ⟨-, after, -, -, hrest⟩ := h.text
  obtain ⟨before, -, -, -, -, hbefore, hstart, -, -⟩ := hbrackets
  have hl : l = ⟨1 + position, 0, blanks ++ p.written s ++ (rest ++ after)⟩ := by
    rw [← h.passed, ← h.torn, ← List.append_assoc, ← hrest]
  cases hnext : l.next.1 with
  | none =>
    rw [hnext, hstart, hbefore] at ha
    simp at ha
  | some place =>
    rw [hnext, hstart, hbefore, hposition] at ha
    rw [hl] at hnext
    refine Locator.plain_of_next (fun c hc => isBlank_of_isTagBlank (hblanks c hc)) hfits hnext ?_
    simp only [Option.getD_some] at ha
    omega

end

namespace StartTag

/-- The attributes of a tag are its pairs, and while the locator is in step their places are right just
when their keys are plain. -/
theorem attributesFrom_spec {raw cs : List Char} {base length position : Nat}
    {seen : List (List Char × Nat)} {l : Locator} {attributes : List Attribute}
    (h : attributesFrom raw base length seen l position cs = .ok attributes) :
    ∃ pairs, Yields length seen position cs pairs ∧
      List.Forall₂ RawPair.Gives pairs attributes ∧
      (Synced raw l position cs → (List.Forall₂ (Brackets raw base) pairs attributes ↔
        ∀ p ∈ pairs, PlainKey p.key)) := by
  fun_induction attributesFrom raw base length seen l position cs generalizing attributes
  case case1 => cases h
  case case2 hdone =>
    cases h
    exact ⟨[], .done hdone, .nil, fun _ => by simp⟩
  case case3 => cases h
  case case4 seen l position cs p next rest hp value hvalue found place written a ih =>
    cases htail : attributesFrom raw base length ((p.key, p.position) :: seen) found.2 next rest with
    | error fault =>
      rw [htail] at h
      cases h
    | ok tail =>
      rw [htail] at h
      cases h
      obtain ⟨pairs, hyields, hgives, hiff⟩ := ih htail
      refine ⟨p :: pairs, .pair hp hyields, .cons ⟨rfl, ?_⟩ hgives, fun hsynced => ?_⟩
      · simpa [a] using hvalue
      · by_cases hplain : PlainKey p.key
        · obtain ⟨hsynced', place', hplace, hbrackets⟩ := hsynced.of_plain hp hplain
          have hhead : Brackets raw base p a := by
            refine hbrackets base a ?_ ?_ ?_ <;> simp [a, place, found, hplace]
          simp [hhead, hplain, hiff hsynced']
        · refine iff_of_false ?_ (by simp [hplain])
          intro hall
          obtain _ | ⟨hhead, -⟩ := hall
          exact hplain (hsynced.plain_of_brackets hp rfl hhead)

/-- No key is read twice. -/
theorem Yields.keys {length position : Nat} {seen : List (List Char × Nat)} {cs : List Char}
    {pairs : List RawPair} (h : Yields length seen position cs pairs) :
    (pairs.map (·.key)).Nodup ∧ ∀ p ∈ pairs, ∀ q ∈ seen, q.1 ≠ p.key := by
  induction h with
  | done => simp
  | @pair seen position next cs rest p ps hp _ ih =>
    obtain ⟨-, -, -, -, -, -, -, hseen⟩ := nextPair_spec hp
    obtain ⟨hnodup, hfresh⟩ := ih
    refine ⟨?_, ?_⟩
    · rw [List.map_cons, List.nodup_cons]
      refine ⟨fun hmem => ?_, hnodup⟩
      obtain ⟨q, hq, hkey⟩ := List.mem_map.1 hmem
      exact hfresh q hq _ List.mem_cons_self hkey.symm
    · rintro q hq previous hprevious
      rcases List.mem_cons.1 hq with rfl | hq
      · exact hseen previous hprevious
      · exact hfresh q hq previous (List.mem_cons_of_mem _ hprevious)

theorem names_of_gives {pairs : List RawPair} {attributes : List Attribute}
    (h : List.Forall₂ RawPair.Gives pairs attributes) :
    attributes.map (·.name) = pairs.map fun p => String.ofList p.key := by
  induction h with
  | nil => rfl
  | cons hgives _ ih => rw [List.map_cons, List.map_cons, ih, hgives.1]

/-- Attributes with different names all stay, in their order. -/
theorem foldl_setAttribute {e : Element} {attributes : List Attribute}
    (h : ((e.attributes ++ attributes).map (·.name)).Nodup) :
    attributes.foldl Element.setAttribute e =
      { e with attributes := e.attributes ++ attributes } := by
  induction attributes generalizing e with
  | nil => simp
  | cons a attributes ih =>
    have hset : e.setAttribute a = { e with attributes := e.attributes ++ [a] } := by
      have hnew : ∀ b ∈ e.attributes, b.name ≠ a.name := by
        rw [List.map_append, List.nodup_append] at h
        intro b hb
        exact h.2.2 _ (List.mem_map_of_mem hb) _ (by simp)
      have hany : e.attributes.any (·.name = a.name) = false := by simpa using hnew
      simp only [Element.setAttribute, hany, Bool.false_eq_true, if_false]
    rw [List.foldl_cons, hset, ih (by simpa using h)]
    simp

theorem drop_append (a b : List Char) : Locator.drop (byteLength a) (a ++ b) = (0, b) := by
  induction a with
  | nil => cases b <;> rfl
  | cons c a ih =>
    obtain ⟨n, hn⟩ : ∃ n, byteLength (c :: a) = n + 1 :=
      Nat.exists_eq_add_one.2 (Nat.add_pos_left c.utf8Size_pos _)
    rw [byteLength_cons] at hn
    have hle : c.utf8Size ≤ n + 1 := hn ▸ Nat.le_add_right _ _
    have hsub : n + 1 - c.utf8Size = byteLength a := by omega
    simp [hn, Locator.drop, hle, hsub, ih]

end StartTag

/-- The start tag of an element and the pairs that its attributes are read from. -/
structure Element.ReadFrom (e : Element) (text content closing : List Char) (pairs : List RawPair) :
    Prop where
  close : closing = ['>'] ∨ closing = ['/', '>']
  tag : slice? text e.start e.tagStop = some ('<' :: content ++ closing)
  yields : StartTag.Yields (byteLength content) []
    (byteLength (content.takeWhile fun c => !isTagBlank c))
    (content.dropWhile fun c => !isTagBlank c) pairs
  gives : List.Forall₂ RawPair.Gives pairs e.attributes

/-- The attributes of an element are placed right just when their keys are plain. -/
def Element.Placed (e : Element) (text : List Char) : Prop :=
  ∃ content closing pairs, e.ReadFrom text content closing pairs ∧
    (List.Forall₂ (Brackets ('<' :: content ++ closing) e.start) pairs e.attributes ↔
      ∀ p ∈ pairs, PlainKey p.key)

theorem StartTag.placed_element {text content closing : List Char} {start stop : Nat} {e : Element}
    (hclose : closing = ['>'] ∨ closing = ['/', '>'])
    (htag : slice? text start stop = some ('<' :: content ++ closing))
    (h : StartTag.element text content start stop = .ok e) : e.Placed text := by
  unfold StartTag.element at h
  rw [htag, Option.getD_some] at h
  have hcut : (content.takeWhile fun c => !isTagBlank c) ++
      (content.dropWhile fun c => !isTagBlank c) = content := List.takeWhile_append_dropWhile
  generalize hname : content.takeWhile (fun c => !isTagBlank c) = name at h hcut
  generalize hrest : content.dropWhile (fun c => !isTagBlank c) = rest at h hcut
  have hstart : Locator.start ('<' :: content ++ closing) (1 + byteLength name) =
      ⟨1 + byteLength name, 0, rest ++ closing⟩ := by
    have hraw : '<' :: content ++ closing = '<' :: name ++ (rest ++ closing) := by simp [← hcut]
    have hlength : 1 + byteLength name = byteLength ('<' :: name) := rfl
    rw [hraw, hlength, Locator.start, drop_append, byteLength_append, Nat.min_eq_left (by omega)]
  have hsynced : Synced ('<' :: content ++ closing)
      (.start ('<' :: content ++ closing) (1 + byteLength name)) (byteLength name) rest := by
    rw [hstart]
    exact ⟨rfl, rfl, '<' :: name, closing, by simp [← hcut], rfl, rfl⟩
  cases hread : attributesFrom ('<' :: content ++ closing) start (byteLength content) []
      (.start ('<' :: content ++ closing) (1 + byteLength name)) (byteLength name) rest with
  | error fault =>
    dsimp only at h
    rw [hread] at h
    cases h
  | ok attributes =>
    dsimp only at h
    rw [hread] at h
    obtain ⟨pairs, hyields, hgives, hiff⟩ := attributesFrom_spec hread
    have hnodup : (attributes.map (·.name)).Nodup := by
      rw [names_of_gives hgives]
      simpa [Function.comp_def] using
        hyields.keys.1.map (f := String.ofList) fun _ _ => String.ofList_injective
    have hopened := foldl_setAttribute
      (e := { Element.opened (String.ofList name) start with tagStop := stop }) hnodup
    obtain rfl := (Except.ok.inj h).symm.trans hopened
    subst hname hrest
    exact ⟨content, closing, pairs, ⟨hclose, htag, hyields, hgives⟩, hiff hsynced⟩

/-! ## The elements of a document -/

/-- Whether the attributes of an element are placed right depends on its start tag alone. -/
theorem Element.Placed.congr {e e' : Element} {text : List Char} (h : e.Placed text)
    (hstart : e'.start = e.start) (hstop : e'.tagStop = e.tagStop)
    (hattributes : e'.attributes = e.attributes) : e'.Placed text := by
  obtain ⟨content, closing, pairs, ⟨hclose, htag, hyields, hgives⟩, hiff⟩ := h
  rw [← hattributes, ← hstart] at hiff
  rw [← hattributes] at hgives
  rw [← hstart, ← hstop] at htag
  exact ⟨content, closing, pairs, ⟨hclose, htag, hyields, hgives⟩, hiff⟩

namespace Document

variable {doc : Document} {text : List Char}

/-- The attributes of every element are read from the pairs in its start tag, and they are placed right
just when their keys are plain. -/
theorem placed_ofText {id : DocumentId} {path : String} (hmark : Reader.withoutMark text = text)
    (h : ofText id path text = .ok doc) {element : ElementId} {e : Element}
    (he : doc.element? element = some e) : e.Placed text := by
  refine forall_of_ofText (P := fun e => e.Placed text) h ?_ ?_ he
  · intro e e' _ hstart hstop hattributes hplaced
    exact hplaced.congr hstart hstop hattributes
  · intro before content closing after e htext hclose he
    have htag : slice? text (byteLength before)
        (byteLength before + byteLength ('<' :: content ++ closing)) =
          some ('<' :: content ++ closing) := by
      rw [hmark] at htext
      nth_rewrite 1 [htext]
      exact slice?_append _ _ _
    exact StartTag.placed_element hclose htag he

/-- The attributes of an element are read from pairs in its start tag, and they are all placed where
these are written just when all their keys are plain. -/
theorem brackets_iff {id : DocumentId} {path : String} (hmark : Reader.withoutMark text = text)
    (h : ofText id path text = .ok doc) {element : ElementId} {e : Element}
    (he : doc.element? element = some e) :
    ∃ content closing pairs, e.ReadFrom text content closing pairs ∧
      (List.Forall₂ (Brackets ('<' :: content ++ closing) e.start) pairs e.attributes ↔
        ∀ p ∈ pairs, PlainKey p.key) :=
  placed_ofText hmark h he

/-- An element of the document that a text is read to. -/
def read? (text : List Char) (element : ElementId) : Option Element :=
  (ofText 0 "" text).toOption.bind (·.element? element)

theorem exists_of_read? {element : ElementId} {e : Element} (h : read? text element = some e) :
    ∃ doc, ofText 0 "" text = .ok doc ∧ doc.element? element = some e := by
  unfold read? at h
  cases hread : ofText 0 "" text with
  | error failure =>
    rw [hread] at h
    cases h
  | ok doc =>
    rw [hread] at h
    exact ⟨doc, rfl, h⟩

theorem brackets_iff_frame : ∃ doc e, ofText 0 "" "<Frame name=\"X\"/>".toList = .ok doc ∧
    doc.element? 0 = some e ∧
    ∃ content closing pairs, e.ReadFrom "<Frame name=\"X\"/>".toList content closing pairs ∧
      (List.Forall₂ (Brackets ('<' :: content ++ closing) e.start) pairs e.attributes ↔
        ∀ p ∈ pairs, PlainKey p.key) := by
  have hsome : (read? "<Frame name=\"X\"/>".toList 0).isSome := by decide +kernel
  obtain ⟨e, he⟩ := Option.isSome_iff_exists.1 hsome
  obtain ⟨doc, hread, helement⟩ := exists_of_read? he
  exact ⟨doc, e, hread, helement, brackets_iff rfl hread helement⟩

/-- In `<Frame a/b="1" name="X"/>` the locator stops at the slash in the first key and stays there:
neither attribute is placed where it is written. -/
theorem misplaced_behind_slash : ∃ doc e,
    ofText 0 "" "<Frame a/b=\"1\" name=\"X\"/>".toList = .ok doc ∧ doc.element? 0 = some e ∧
      e.attributes.map (fun a => (a.name, a.start, a.valueStart, a.stop)) =
        [("a/b", 0, 0, 0), ("name", 0, 0, 0)] ∧
      ∀ raw p, ∀ a ∈ e.attributes, ¬ Brackets raw e.start p a := by
  have hplaces : (read? "<Frame a/b=\"1\" name=\"X\"/>".toList 0).map (fun e =>
      (e.start, e.attributes.map fun a => (a.name, a.start, a.valueStart, a.stop))) =
        some (0, [("a/b", 0, 0, 0), ("name", 0, 0, 0)]) := by decide +kernel
  obtain ⟨e, he, hvalues⟩ := Option.map_eq_some_iff.1 hplaces
  obtain ⟨doc, hread, helement⟩ := exists_of_read? he
  obtain ⟨hstart, hattributes⟩ := Prod.mk.inj hvalues
  refine ⟨doc, e, hread, helement, hattributes, fun raw p a ha hbrackets => ?_⟩
  -- a key never starts at the start of its tag
  obtain ⟨before, s, after, -, -, hbefore, hkey, -, -⟩ := hbrackets
  have hmem : (a.name, a.start, a.valueStart, a.stop) ∈
      [("a/b", 0, 0, 0), ("name", 0, 0, 0)] := by
    rw [← hattributes]
    exact List.mem_map_of_mem ha
  simp only [List.mem_cons, Prod.mk.injEq, List.not_mem_nil, or_false] at hmem
  omega

end Document

end Markup
end UILayout
