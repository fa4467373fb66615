import UILayout.Proofs.Markup.Positions
import UILayout.Proofs.Markup.Offsets

/-!
# UILayout.Proofs.Markup.Inside

What is said about an attribute lies inside its start tag, also when the locator has lost its place. The
locator passes over at most one pair at a time, so it never overtakes the reader of the pairs: what it
finds is the pair that has been read, or stands before it.

* `Locator.next_pair`: what the locator does with a pair.
* `Behind.step`: the locator stays behind the reader.
* `Document.tag_ofText`: the start tags lie inside the text.
* `Document.value_ofText`: all values lie inside their tags.
* `Document.inside_ofText`: the places of all attributes lie inside their tags, in a text without a byte
  order mark.
-/

namespace UILayout
namespace Markup

open Text

/-! ## Walking behind the reader -/

namespace Locator

/-- The locator does not get past such a character. -/
def Stops (c : Char) : Prop := ¬ isBlank c ∧ ¬ isNameChar c

theorem next_of_stops {position : Nat} {blanks rest : List Char} {c : Char}
    (hblanks : ∀ c ∈ blanks, isBlank c) (hc : Stops c) :
    next ⟨position, 0, blanks ++ c :: rest⟩ =
      (none, ⟨position + byteLength blanks, 0, c :: rest⟩) := by
  have hskip : skipBlanks ⟨position, 0, blanks ++ c :: rest⟩ = ⟨position + blanks.length, 0, c :: rest⟩ :=
    skipBlanks_run hblanks (by simpa using hc.1)
  simp [next, hskip, hc.2, byteLength_of_blank hblanks]

end Locator

/-- What the reader of the pairs has passed and the locator has not: pairs, the first of which may have
lost the front of its key, unless the locator is stuck. -/
inductive Trailing : List Char → Prop where
  | nil : Trailing []
  | stuck {c : Char} {rest : List Char} : Locator.Stops c → Trailing (c :: rest)
  | pair {blanks rest : List Char} {p : RawPair} {s : Spacing} : (∀ c ∈ blanks, isTagBlank c) →
      s.Fits p → Trailing rest → Trailing (blanks ++ p.written s ++ rest)

theorem Trailing.append_pair {trail blanks : List Char} {p : RawPair} {s : Spacing}
    (h : Trailing trail) (hblanks : ∀ c ∈ blanks, isTagBlank c) (hfits : s.Fits p) :
    Trailing (trail ++ (blanks ++ p.written s)) := by
  induction h with
  | nil =>
    have hpair := Trailing.pair hblanks hfits .nil
    rwa [List.append_nil] at hpair
  | stuck hc => exact .stuck hc
  | pair hblanks' hfits' _ ih =>
    rw [List.append_assoc]
    exact .pair hblanks' hfits' ih

theorem IsKey.suffix {front ks : List Char} {k : Char} (h : IsKey (front ++ k :: ks))
    (hk : ¬ isTagBlank k) : IsKey (k :: ks) := by
  refine ⟨hk, fun c hc => ?_⟩
  cases front with
  | nil => exact h.2 c hc
  | cons d front => exact h.2 c (by simp [hc])

theorem Spacing.Fits.byteLength_written {p : RawPair} {s : Spacing} (h : s.Fits p) :
    byteLength (p.written s) = byteLength (p.lead s) + byteLength p.value + 2 := by
  have hquote : s.quote.utf8Size = 1 := by rcases h.quote with hq | hq <;> rw [hq] <;> rfl
  simp only [RawPair.written, byteLength_append, byteLength_cons, byteLength_nil, hquote]
  omega

/-- The rest of a pair, behind the front of its key. -/
theorem Spacing.Fits.suffix {p : RawPair} {s : Spacing} {front ks : List Char} {k : Char}
    (h : s.Fits p) (hkey : p.key = front ++ k :: ks) (hk : ¬ isTagBlank k) :
    s.Fits { p with key := k :: ks } ∧
      p.written s = front ++ { p with key := k :: ks }.written s := by
  refine ⟨⟨?_, h.afterKey, h.afterEquals, h.quote, h.value⟩, ?_⟩
  · have hp := h.key
    rw [hkey] at hp
    exact hp.suffix hk
  · simp [RawPair.written, RawPair.lead, hkey]

namespace Locator

/-- A form feed, which is a blank for the locator and none for the reader of the pairs. -/
def feed : Char := Char.ofNat 12

/-- What the locator finds of a pair that is written behind some blanks at `position`. Only a form feed
can put the start anywhere but at the key. -/
structure Place.Finds (place : Place) (position : Nat) (blanks : List Char) (p : RawPair) (s : Spacing) :
    Prop where
  start : p.key.head? ≠ some feed → place.start = position + byteLength blanks
  start_le : place.start ≤ place.valueStart
  valueStart : place.valueStart = position + byteLength (blanks ++ p.lead s)
  stop : place.stop = position + byteLength (blanks ++ p.written s)

/-- The locator finds nothing in what stands at `position`, and goes on inside of it. -/
def Misses (position : Nat) (written rest : List Char) : Prop :=
  ∃ passed left, written = passed ++ left ∧ (∀ more, Trailing more → Trailing (left ++ more)) ∧
    next ⟨position, 0, written ++ rest⟩ = (none, ⟨position + byteLength passed, 0, left ++ rest⟩)

section

variable {position : Nat} {blanks : List Char} {p : RawPair} {s : Spacing}

/-- In a key of nothing but form feeds, the locator stops at the equals sign. -/
theorem misses_of_feeds (hblanks : ∀ c ∈ blanks ++ p.key, isBlank c) (hfits : s.Fits p)
    (rest : List Char) : Misses position (blanks ++ p.written s) rest := by
  have hall : ∀ c ∈ blanks ++ p.key ++ s.afterKey, isBlank c := by
    intro c hc
    rcases List.mem_append.1 hc with hc | hc
    · exact hblanks c hc
    · exact isBlank_of_isTagBlank (hfits.afterKey c hc)
  have hequals : Stops '=' := by constructor <;> decide
  refine ⟨blanks ++ p.key ++ s.afterKey, '=' :: (s.afterEquals ++ s.quote :: p.value ++ [s.quote]),
    by simp [RawPair.written, RawPair.lead], fun more _ => .stuck hequals, ?_⟩
  have htext : blanks ++ p.written s ++ rest = blanks ++ p.key ++ s.afterKey ++
      '=' :: (s.afterEquals ++ s.quote :: p.value ++ [s.quote] ++ rest) := by
    simp [RawPair.written, RawPair.lead]
  rw [htext, next_of_stops hall hequals]
  rfl

/-- In a key that starts with a letter, the locator stops where the key goes on behind a blank or a
slash, and the rest of the pair looks like a pair. -/
theorem misses_of_name {k : Char} {ks : List Char} (hblanks : ∀ c ∈ blanks, isBlank c)
    (hfits : s.Fits p) (hkey : p.key = k :: ks) (hname : isNameChar k)
    (hplain : ¬ ∀ c ∈ (k :: ks).dropWhile isNameChar, isBlank c) (rest : List Char) :
    Misses position (blanks ++ p.written s) rest := by
  have hks := hfits.key
  rw [hkey] at hks
  obtain ⟨front, e, inner, hfront, he, hnext⟩ := @next_inside position _ ks
    (s.afterKey ++ '=' :: s.afterEquals ++ s.quote :: p.value ++ [s.quote] ++ rest) k hblanks
    hname (fun c hc => (hks.2 c hc).1) hplain
  obtain ⟨hfits', hwritten⟩ := @Spacing.Fits.suffix _ s (k :: front) inner e hfits
    (by simp [hkey, hfront]) fun h => he (isBlank_of_isTagBlank h)
  refine ⟨blanks ++ k :: front, { p with key := e :: inner }.written s, ?_, fun more hmore => ?_, ?_⟩
  · rw [hwritten, List.append_assoc _ (k :: front)]
  · simpa using @Trailing.pair [] more _ s nofun hfits' hmore
  · simpa [RawPair.written, RawPair.lead, hkey] using hnext

/-- At any other first character the locator does not move. -/
theorem misses_of_stops {k : Char} {ks : List Char} (hblanks : ∀ c ∈ blanks, isBlank c)
    (hkey : p.key = k :: ks) (hstops : Stops k) (rest : List Char) :
    Misses position (blanks ++ p.written s) rest := by
  refine ⟨blanks, p.written s, rfl, fun more _ => ?_, ?_⟩
  · simpa [RawPair.written, RawPair.lead, hkey] using Trailing.stuck hstops
  · simpa [RawPair.written, RawPair.lead, hkey] using next_of_stops hblanks hstops

/-- The locator finds a pair and stops behind it, or misses it. -/
theorem next_pair (hblanks : ∀ c ∈ blanks, isTagBlank c) (hfits : s.Fits p) (rest : List Char) :
    (∃ place, place.Finds position blanks p s ∧
      next ⟨position, 0, blanks ++ p.written s ++ rest⟩ =
        (some place, ⟨position + byteLength (blanks ++ p.written s), 0, rest⟩)) ∨
    Misses position (blanks ++ p.written s) rest := by
  have hskipped : ∀ c ∈ blanks ++ p.key.takeWhile isBlank, isBlank c := by
    intro c hc
    rcases List.mem_append.1 hc with hc | hc
    · exact isBlank_of_isTagBlank (hblanks c hc)
    · exact List.mem_takeWhile_imp hc
  have hcut : p.key.takeWhile isBlank ++ p.key.dropWhile isBlank = p.key :=
    List.takeWhile_append_dropWhile
  have hfeeds : p.key.head? ≠ some feed → p.key.takeWhile isBlank = [] := by
    have hkey := hfits.key
    cases hks : p.key with
    | nil => exact fun _ => rfl
    | cons k ks =>
      rw [hks] at hkey
      intro hne
      have hk : ¬ isBlank k := by
        have hnot : k ≠ Char.ofNat 12 := fun h => hne (by rw [h]; rfl)
        simpa [isBlank, hnot] using hkey.1
      rw [List.takeWhile_cons_of_neg hk]
  generalize p.key.takeWhile isBlank = feeds at *
  cases hcore : p.key.dropWhile isBlank with
  | nil =>
    rw [hcore, List.append_nil] at hcut
    rw [hcut] at hskipped
    exact .inr (misses_of_feeds hskipped hfits rest)
  | cons k ks =>
    -- behind the form feeds in front, the key is one that starts with no blank
    rw [hcore] at hcut
    have hk : ¬ isBlank k := by
      obtain ⟨-, -, -, -, hk⟩ := exists_run hcore
      exact hk
    obtain ⟨hfits', hwritten⟩ := hfits.suffix hcut.symm fun h => hk (isBlank_of_isTagBlank h)
    have hsame : blanks ++ p.written s = blanks ++ feeds ++ { p with key := k :: ks }.written s := by
      simp [hwritten]
    by_cases hname : isNameChar k
    · by_cases hplain : ∀ c ∈ (k :: ks).dropWhile isNameChar, isBlank c
      · left
        have hlead : blanks ++ p.lead s = blanks ++ feeds ++ { p with key := k :: ks }.lead s := by
          simp [RawPair.lead, ← hcut]
        have hwalk := @next_of_plain position _ rest _ s hskipped hfits' ⟨by simp [hname], hplain⟩
        rw [← hsame, ← hlead] at hwalk
        refine ⟨_, ⟨fun hne => by rw [hfeeds hne, List.append_nil], ?_, rfl, rfl⟩, hwalk⟩
        rw [hlead]
        simp
      · rw [hsame]
        exact .inr (misses_of_name hskipped hfits' rfl hname hplain rest)
    · rw [hsame]
      exact .inr (misses_of_stops hskipped rfl ⟨hk, hname⟩ rest)

end

end Locator

/-- The locator stands where the content that is left begins, or before that. The content starts behind
the `<`. -/
structure Behind (raw : List Char) (l : Locator) (position : Nat) (cs : List Char) : Prop where
  torn : l.torn = 0
  text : ∃ front trail after, raw = front ++ (trail ++ (cs ++ after)) ∧ l.rest = trail ++ (cs ++ after) ∧
    l.position = byteLength front ∧ byteLength (front ++ trail) = 1 + position ∧ Trailing trail

/-- What the locator says about a pair: that it is the one that stands there, or one before it. -/
inductive Locates (raw : List Char) (place : Locator.Place) (p : RawPair) : Prop where
  | here {before blanks after : List Char} {s : Spacing} :
      raw = before ++ (blanks ++ p.written s) ++ after → s.Fits p →
      place.Finds (byteLength before) blanks p s → Locates raw place p
  | earlier {before after : List Char} {s : Spacing} : raw = before ++ p.written s ++ after →
      s.Fits p → place.start ≤ place.valueStart → place.valueStart ≤ place.stop →
      place.stop ≤ byteLength before → Locates raw place p
section

variable {raw cs rest : List Char} {length position next : Nat} {p : RawPair}
  {seen : List (List Char × Nat)} {l : Locator}

theorem Behind.exists_written (h : Behind raw l position cs)
    (hp : StartTag.nextPair length seen position cs = .ok (.pair p next rest)) :
    ∃ before s after, raw = before ++ p.written s ++ after ∧ s.Fits p := by
  obtain ⟨blanks, s, rfl, -, hfits, -, -, -⟩ := StartTag.nextPair_spec hp
  obtain ⟨front, trail, after, hraw, -⟩ := h.text
  exact ⟨front ++ trail ++ blanks, s, rest ++ after, by simp [hraw], hfits⟩

/-- While the reader passes over a pair, the locator passes over one at most. -/
theorem Behind.step (h : Behind raw l position cs)
    (hp : StartTag.nextPair length seen position cs = .ok (.pair p next rest)) :
    Behind raw l.next.2 next rest ∧ ∀ place, l.next.1 = some place → Locates raw place p := by
  obtain ⟨blanks, s, rfl, hblanks, hfits, -, hnext, -⟩ := StartTag.nextPair_spec hp
  obtain ⟨front, trail, after, hraw, hrest, hposition, hlength, htrail⟩ := h.text
  have hl : l = ⟨byteLength front, 0, trail ++ (blanks ++ p.written s ++ (rest ++ after))⟩ := by
    rw [← hposition, ← h.torn, ← List.append_assoc _ rest, ← hrest]
  have hbehind : ∀ front' trail', front ++ (trail ++ (blanks ++ p.written s)) = front' ++ trail' →
      Trailing trail' → Behind raw ⟨byteLength front', 0, trail' ++ (rest ++ after)⟩ next rest := by
    intro front' trail' hsame htrail'
    refine ⟨rfl, front', trail', after, ?_, rfl, rfl, ?_, htrail'⟩
    · rw [hraw, ← List.append_assoc front', ← hsame]
      simp
    · rw [← hsame, ← List.append_assoc, byteLength_append, hlength, hnext, Nat.add_assoc]
  rw [hl]
  cases htrail with
  | nil =>
    rcases Locator.next_pair hblanks hfits (rest ++ after) with ⟨place, hfinds, hwalk⟩ |
      ⟨passed, left, hcut, hleft, hwalk⟩
    · rw [List.nil_append, hwalk]
      refine ⟨?_, fun found hfound => ?_⟩
      · have := hbehind (front ++ (blanks ++ p.written s)) [] (by simp) .nil
        rwa [byteLength_append] at this
      · cases hfound
        exact .here (by simpa using hraw) hfits hfinds
    · rw [List.nil_append, hwalk]
      refine ⟨?_, nofun⟩
      have := hbehind (front ++ passed) left (by simp [hcut]) (by simpa using hleft [] .nil)
      rwa [byteLength_append] at this
  | @stuck c more hc =>
    have hwalk := @Locator.next_of_stops (byteLength front) []
      (more ++ (blanks ++ p.written s ++ (rest ++ after))) c nofun hc
    rw [List.nil_append] at hwalk
    rw [List.cons_append, hwalk]
    refine ⟨?_, nofun⟩
    have := hbehind front _ rfl (.stuck hc)
    simpa using this
  | @pair blanks' more p' s' hblanks' hfits' hmore =>
    have hmore' := hmore.append_pair hblanks hfits
    rw [List.append_assoc _ more]
    rcases Locator.next_pair hblanks' hfits' (more ++ (blanks ++ p.written s ++ (rest ++ after))) with
      ⟨place, hfinds, hwalk⟩ | ⟨passed, left, hcut, hleft, hwalk⟩
    · rw [hwalk]
      refine ⟨?_, fun found hfound => ?_⟩
      · have := hbehind (front ++ (blanks' ++ p'.written s')) (more ++ (blanks ++ p.written s))
          (by simp) hmore'
        simpa using this
      · cases hfound
        have htext : raw = front ++ (blanks' ++ p'.written s' ++ more) ++ blanks ++ p.written s ++
            (rest ++ after) := by simp [hraw]
        refine .earlier htext hfits hfinds.start_le ?_ ?_
        · rw [hfinds.valueStart, hfinds.stop, byteLength_append, byteLength_append,
            hfits'.byteLength_written]
          omega
        · rw [hfinds.stop]
          simp
    · rw [hwalk]
      refine ⟨?_, nofun⟩
      have := hbehind (front ++ passed) (left ++ (more ++ (blanks ++ p.written s)))
        (by simp [← List.append_assoc, hcut]) (hleft _ hmore')
      simpa using this

end

/-! ## Staying in the tag -/

namespace Locator

/-- Where the text ends that a locator has before it. -/
def ends (l : Locator) : Nat := l.position + l.torn + byteLength l.rest

theorem ends_skipBlanks (l : Locator) : l.skipBlanks.ends = l.ends := by
  unfold skipBlanks
  split
  · rename_i htorn
    have hcut := congrArg byteLength (@List.takeWhile_append_dropWhile _ isBlank l.rest)
    have hlength := @byteLength_of_blank (l.rest.takeWhile isBlank) fun c => List.mem_takeWhile_imp
    rw [byteLength_append] at hcut
    simp only [ends, htorn]
    omega
  · rfl

theorem torn_skipBlanks {l : Locator} (htorn : l.torn = 0) : l.skipBlanks.torn = 0 := by
  rw [skipBlanks, if_pos htorn]

theorem ends_value {l : Locator} (htorn : l.torn = 0) (start : Nat) :
    (value l start).2.ends ≤ l.ends ∧ ∀ place, (value l start).1 = some place →
      place.valueStart ≤ place.stop ∧ place.stop ≤ l.ends := by
  have hends := ends_skipBlanks l
  have htorn' := torn_skipBlanks htorn
  unfold value
  generalize l.skipBlanks = l' at hends htorn'
  dsimp only
  split
  · refine ⟨hends.le, ?_⟩
    rintro place ⟨⟩
  · rename_i q inner hrest
    split
    · rename_i hq
      have hquote : q.utf8Size = 1 := by rcases hq with rfl | rfl <;> rfl
      have hcut := congrArg byteLength (@List.takeWhile_append_dropWhile _ (· ≠ q) inner)
      simp only [ends, htorn', hrest, byteLength_cons, hquote] at hends
      rw [byteLength_append] at hcut
      cases hbehind : inner.dropWhile (· ≠ q) with
      | nil =>
        rw [hbehind, byteLength_nil] at hcut
        simp only [ends, List.isEmpty_nil, if_true, List.drop_nil, byteLength_nil]
        refine ⟨by omega, ?_⟩
        rintro place ⟨⟩
        dsimp only
        exact ⟨by omega, by omega⟩
      | cons c rest =>
        have hsize := c.utf8Size_pos
        rw [hbehind, byteLength_cons] at hcut
        simp only [ends, List.isEmpty_cons, Bool.false_eq_true, if_false, List.drop_succ_cons,
          List.drop_zero]
        refine ⟨by omega, ?_⟩
        rintro place ⟨⟩
        dsimp only
        exact ⟨by omega, by omega⟩
    · refine ⟨hends.le, ?_⟩
      rintro place ⟨⟩

/-- A locator does not leave the tag, wherever it started in it. -/
theorem ends_next (l : Locator) : l.next.2.ends ≤ l.ends ∧ ∀ place, l.next.1 = some place →
    place.valueStart ≤ place.stop ∧ place.stop ≤ l.ends := by
  have hends := ends_skipBlanks l
  unfold next
  generalize l.skipBlanks = l' at hends
  dsimp only
  split
  · exact ⟨hends.le, nofun⟩
  · have hname : (⟨l'.position + l'.torn + byteLength (l'.rest.takeWhile isNameChar), 0,
        l'.rest.dropWhile isNameChar⟩ : Locator).ends = l.ends := by
      have hcut := congrArg byteLength (@List.takeWhile_append_dropWhile _ isNameChar l'.rest)
      rw [byteLength_append] at hcut
      rw [← hends]
      simp only [ends]
      omega
    rw [← ends_skipBlanks] at hname
    have htorn := @torn_skipBlanks ⟨l'.position + l'.torn + byteLength (l'.rest.takeWhile isNameChar), 0,
      l'.rest.dropWhile isNameChar⟩ rfl
    generalize skipBlanks _ = behind at hname htorn
    split
    · exact ⟨hname.le, nofun⟩
    · rename_i e rest hrest
      split
      · rename_i he
        have hsize : e.utf8Size = 1 := by rw [he]; rfl
        have hvalue := @ends_value ⟨behind.position + 1, 0, rest⟩ rfl l'.position
        simp only [ends, htorn, hrest, byteLength_cons, hsize] at hname hvalue ⊢
        refine ⟨by omega, fun place hplace => ?_⟩
        have hstop := hvalue.2 place hplace
        exact ⟨hstop.1, by omega⟩
      · exact ⟨hname.le, nofun⟩

theorem drop_spec (n : Nat) (cs : List Char) :
    (drop n cs).1 + byteLength (drop n cs).2 + min n (byteLength cs) = byteLength cs := by
  induction cs generalizing n with
  | nil => cases n <;> rfl
  | cons c cs ih =>
    have hsize := c.utf8Size_pos
    cases n with
    | zero => simp [drop]
    | succ n =>
      rw [drop]
      split
      · have := ih (n + 1 - c.utf8Size)
        rw [byteLength_cons]
        omega
      · rw [byteLength_cons]
        dsimp only
        omega

theorem ends_start (raw : List Char) (skip : Nat) : (start raw skip).ends = byteLength raw := by
  have := drop_spec skip raw
  simp only [start, ends]
  omega

end Locator

/-! ## What is said about an attribute -/

/-- The spans of an attribute end in front of `stop`; that of its name may not when it starts with a form
feed. -/
structure Attribute.Inside (a : Attribute) (stop : Nat) : Prop where
  name : a.name.toList.head? ≠ some Locator.feed → a.nameSpan.stop ≤ stop
  value : a.valueSpan.stop ≤ stop
  source : ∀ position ≤ a.value.utf8ByteSize, a.sourceOffset position ≤ stop

/-- The positions in the value of an attribute keep their order in the document. -/
def Attribute.Ordered (a : Attribute) : Prop :=
  ∀ position later, position ≤ later → a.sourceOffset position ≤ a.sourceOffset later

/-- The attribute that a pair gives, with the place that the locator has found for it. -/
def RawPair.attribute (raw : List Char) (base : Nat) (p : RawPair) (value : List Char)
    (found? : Option Locator.Place) : Attribute :=
  let place := found?.getD ⟨0, 0, 0⟩
  ⟨String.ofList p.key, String.ofList value, base + place.start, base + place.stop,
    base + place.valueStart,
    Reference.edges ((slice? raw (place.valueStart + 1) (place.stop - 1)).getD [])⟩

theorem RawPair.ordered_attribute (raw : List Char) (base : Nat) (p : RawPair) (value : List Char)
    (found? : Option Locator.Place) : (p.attribute raw base value found?).Ordered :=
  fun _ _ h => Attribute.sourceOffset_mono rfl h

section

variable {raw value : List Char} {p : RawPair}

/-- The length of what stands between the quotes at a place. -/
theorem byteLength_written_le (raw : List Char) (place : Locator.Place) :
    byteLength ((slice? raw (place.valueStart + 1) (place.stop - 1)).getD []) ≤
      place.stop - 1 - (place.valueStart + 1) := by
  cases h : slice? raw (place.valueStart + 1) (place.stop - 1) with
  | none => exact Nat.zero_le _
  | some written => exact (byteLength_of_slice? h).le

section

variable {before after : List Char} {s : Spacing}

/-- The attribute of a pair that was found where it stands is written as the pair is. -/
theorem writes_of_finds {blanks : List Char} {place : Locator.Place}
    (hraw : raw = before ++ (blanks ++ p.written s) ++ after) (hfits : s.Fits p)
    (hfinds : place.Finds (byteLength before) blanks p s)
    (hvalue : Reference.unescape p.value = .ok value) (base : Nat) :
    (p.attribute raw base value (some place)).Writes p.value := by
  have hvalueStart := hfinds.valueStart
  have hstop := hfinds.stop
  have hwritten := hfits.byteLength_written
  have hquote : s.quote.utf8Size = 1 := by rcases hfits.quote with hq | hq <;> rw [hq] <;> rfl
  simp only [byteLength_append] at hvalueStart hstop
  have hslice : slice? raw (place.valueStart + 1) (place.stop - 1) = some p.value := by
    refine slice?_eq_some_iff.2 ⟨before ++ (blanks ++ p.lead s) ++ [s.quote], s.quote :: after, ?_,
      ?_, ?_⟩
    · simp [hraw, RawPair.written]
    · simp [hvalueStart, hquote]
      omega
    · simp [hstop, hquote, hwritten]
      omega
  refine ⟨by simpa [RawPair.attribute] using hvalue, by simp [RawPair.attribute, hslice], ?_⟩
  simp only [RawPair.attribute, Attribute.contentStart, Option.getD_some]
  omega

/-- The attribute of a pair that was found where it stands. -/
theorem inside_of_finds {blanks : List Char} {place : Locator.Place}
    (hraw : raw = before ++ (blanks ++ p.written s) ++ after) (hfits : s.Fits p)
    (hfinds : place.Finds (byteLength before) blanks p s)
    (hvalue : Reference.unescape p.value = .ok value) (base : Nat) :
    (p.attribute raw base value (some place)).Inside (base + byteLength raw) := by
  have hlength := congrArg byteLength hraw
  have hlead : byteLength p.key ≤ byteLength (p.lead s) := by simp [RawPair.lead]
  have hstop := hfinds.stop
  have hwritten := hfits.byteLength_written
  have hwrites := writes_of_finds hraw hfits hfinds hvalue base
  simp only [byteLength_append] at hlength hstop
  have hend : (p.attribute raw base value (some place)).stop ≤ base + byteLength raw := by
    simp only [RawPair.attribute, Option.getD_some]
    omega
  refine ⟨fun hname => ?_, ?_, fun position hposition => ?_⟩
  · rw [RawPair.attribute, String.toList_ofList] at hname
    have hstart := hfinds.start hname
    simp only [RawPair.attribute, Attribute.nameSpan, utf8ByteSize_ofList, Option.getD_some]
    omega
  · have := hwrites.stop
    simp only [Attribute.contentStart] at this
    simp only [Attribute.valueSpan, Span.cover]
    omega
  · exact (hwrites.sourceOffset_lt_stop hposition).2.le.trans hend

/-- The attribute of a pair for which the locator has a place in front of it: its name and its value
are no longer than the pair. -/
theorem inside_of_before (found? : Option Locator.Place) {place : Locator.Place}
    (hplace : found?.getD ⟨0, 0, 0⟩ = place) (hraw : raw = before ++ p.written s ++ after)
    (hfits : s.Fits p) (hstart : place.start ≤ place.valueStart)
    (hvalueStart : place.valueStart ≤ place.stop) (hstop : place.stop ≤ byteLength before)
    (hvalue : Reference.unescape p.value = .ok value) (base : Nat) :
    (p.attribute raw base value found?).Inside (base + byteLength raw) := by
  obtain ⟨hshort, -⟩ := (Reference.unescape_eq_ok_iff.1 hvalue).before_end 0 0
  have hlength := congrArg byteLength hraw
  have hlead : byteLength p.key ≤ byteLength (p.lead s) := by simp [RawPair.lead]
  have hwritten := hfits.byteLength_written
  have hbetween := byteLength_written_le raw place
  simp only [byteLength_append] at hlength
  refine ⟨fun _ => ?_, ?_, fun position hposition => ?_⟩
  · simp only [RawPair.attribute, Attribute.nameSpan, utf8ByteSize_ofList, hplace]
    omega
  · simp only [RawPair.attribute, Attribute.valueSpan, Span.cover, hplace]
    omega
  · rw [RawPair.attribute, utf8ByteSize_ofList] at hposition
    have := Attribute.sourceOffset_le (a := p.attribute raw base value found?) rfl position
    simp only [Attribute.contentStart] at this
    simp only [RawPair.attribute, hplace] at this ⊢
    omega

theorem Locates.inside {place : Locator.Place} (h : Locates raw place p)
    (hvalue : Reference.unescape p.value = .ok value) (base : Nat) :
    (p.attribute raw base value (some place)).Inside (base + byteLength raw) := by
  cases h with
  | here hraw hfits hfinds => exact inside_of_finds hraw hfits hfinds hvalue base
  | earlier hraw hfits hstart hvalueStart hstop =>
    exact inside_of_before (some place) rfl hraw hfits hstart hvalueStart hstop hvalue base

end

end

/-! ## The elements of a document -/

namespace StartTag

variable {raw cs : List Char} {base length position : Nat} {seen : List (List Char × Nat)}
  {l : Locator} {attributes : List Attribute}

theorem ordered_attributesFrom
    (h : attributesFrom raw base length seen l position cs = .ok attributes) :
    ∀ a ∈ attributes, a.Ordered := by
  fun_induction attributesFrom raw base length seen l position cs generalizing attributes
  case case1 => cases h
  case case2 =>
    cases h
    exact List.forall_mem_nil _
  case case3 => cases h
  case case4 seen l position cs p next rest hp value hvalue found place written a ih =>
    obtain ⟨tail, htail, rfl⟩ := exists_of_map_eq_ok h
    rintro b (_ | ⟨_, hb⟩)
    · exact p.ordered_attribute raw base value found.1
    · exact ih htail b hb

theorem inside_attributesFrom
    (h : attributesFrom raw base length seen l position cs = .ok attributes)
    (hbehind : Behind raw l position cs) : ∀ a ∈ attributes, a.Inside (base + byteLength raw) := by
  fun_induction attributesFrom raw base length seen l position cs generalizing attributes
  case case1 => cases h
  case case2 =>
    cases h
    exact List.forall_mem_nil _
  case case3 => cases h
  case case4 seen l position cs p next rest hp value hvalue found place written a ih =>
    obtain ⟨tail, htail, rfl⟩ := exists_of_map_eq_ok h
    obtain ⟨hbehind', hlocates⟩ := hbehind.step hp
    rintro b (_ | ⟨_, hb⟩)
    · change (p.attribute raw base value found.1).Inside (base + byteLength raw)
      cases hfound : found.1 with
      | some place => exact (hlocates place hfound).inside hvalue base
      | none =>
        obtain ⟨before, s, after, hraw, hfits⟩ := hbehind.exists_written hp
        exact inside_of_before none rfl hraw hfits (Nat.zero_le _) (Nat.zero_le _) (Nat.zero_le _)
          hvalue base
    · exact ih htail hbehind' b hb

theorem value_attributesFrom
    (h : attributesFrom raw base length seen l position cs = .ok attributes)
    (hends : l.ends ≤ byteLength raw) :
    ∀ a ∈ attributes, a.valueSpan.stop ≤ base + byteLength raw := by
  fun_induction attributesFrom raw base length seen l position cs generalizing attributes
  case case1 => cases h
  case case2 =>
    cases h
    exact List.forall_mem_nil _
  case case3 => cases h
  case case4 seen l position cs p next rest hp value hvalue found place written a ih =>
    obtain ⟨tail, htail, rfl⟩ := exists_of_map_eq_ok h
    obtain ⟨hnext, hplace⟩ := l.ends_next
    rintro b (_ | ⟨_, hb⟩)
    · change max (base + place.valueStart) (base + place.stop) ≤ base + byteLength raw
      have hbound : place.valueStart ≤ place.stop ∧ place.stop ≤ byteLength raw := by
        cases hfound : found.1 with
        | none => simp [place, hfound]
        | some given =>
          have := hplace given hfound
          simp only [place, hfound, Option.getD_some]
          omega
      omega
    · exact ih htail (hnext.trans hends) b hb

theorem subset_foldl_setAttribute {e : Element} (attributes : List Attribute) :
    (attributes.foldl Element.setAttribute e).attributes ⊆ e.attributes ++ attributes := by
  induction attributes generalizing e with
  | nil => simp
  | cons a attributes ih =>
    have hset : (e.setAttribute a).attributes ⊆ e.attributes ++ [a] := by
      unfold Element.setAttribute
      dsimp only
      split
      · intro b hb
        obtain ⟨old, hold, rfl⟩ := List.mem_map.1 hb
        split
        · simp
        · simp [hold]
      · exact List.Subset.refl _
    refine List.Subset.trans ih ?_
    rw [← List.singleton_append, ← List.append_assoc]
    exact List.append_subset.2 ⟨List.subset_append_of_subset_left _ hset,
      List.subset_append_right _ _⟩

/-- The attributes of an element are read from its start tag. -/
theorem exists_of_element {text content : List Char} {start stop : Nat} {e : Element}
    (h : element text content start stop = .ok e) :
    ∃ raw name rest attributes, raw = (slice? text start stop).getD [] ∧ content = name ++ rest ∧
      attributesFrom raw start (byteLength content) [] (.start raw (1 + byteLength name))
        (byteLength name) rest = .ok attributes ∧ e.attributes ⊆ attributes := by
  obtain ⟨attributes, hread, rfl⟩ := exists_of_map_eq_ok h
  refine ⟨_, _, _, attributes, rfl, List.takeWhile_append_dropWhile.symm, hread, ?_⟩
  have hsub := @subset_foldl_setAttribute
    { Element.opened (String.ofList (content.takeWhile fun c => !isTagBlank c)) start with
      tagStop := stop } attributes
  simpa [Element.opened] using hsub

theorem behind_start {name rest closing : List Char} :
    Behind ('<' :: (name ++ rest) ++ closing) (.start ('<' :: (name ++ rest) ++ closing)
      (1 + byteLength name)) (byteLength name) rest := by
  have hraw : '<' :: (name ++ rest) ++ closing = '<' :: name ++ (rest ++ closing) := by simp
  have hlength : 1 + byteLength name = byteLength ('<' :: name) := rfl
  rw [hraw, hlength, Locator.start, drop_append, byteLength_append, Nat.min_eq_left (by omega)]
  exact ⟨rfl, '<' :: name, [], closing, rfl, rfl, rfl, by rw [List.append_nil]; rfl, .nil⟩

end StartTag

namespace Document

variable {id : DocumentId} {path : String} {text : List Char} {doc : Document} {element : ElementId}
  {e : Element}

/-- The tag of an element stands between the bracket that opens it and the end of its start tag. -/
theorem tag_ofText (h : ofText id path text = .ok doc) (he : doc.element? element = some e) :
    e.start + 1 + e.tag.utf8ByteSize ≤ e.tagStop ∧ e.tagStop ≤ byteLength text := by
  refine forall_of_ofText (P := fun e => e.start + 1 + e.tag.utf8ByteSize ≤ e.tagStop ∧
    e.tagStop ≤ byteLength text) h ?_ ?_ he
  · intro e e' htag hstart hstop _ he
    rwa [htag, hstart, hstop]
  · intro before content closing after e htext _ he
    obtain ⟨htag, hstart, hstop, -⟩ := StartTag.element_spec he
    have hwhole := congrArg byteLength (Reader.mark_append_withoutMark text)
    have hread := congrArg byteLength htext
    have hcut := congrArg byteLength
      (@List.takeWhile_append_dropWhile _ (fun c => !isTagBlank c) content)
    have hopen : '<'.utf8Size = 1 := rfl
    simp only [byteLength_append, byteLength_cons] at hwhole hread hcut
    rw [htag, hstart, hstop, utf8ByteSize_ofList]
    simp only [byteLength_append, byteLength_cons]
    omega

/-- The positions in all values keep their order. -/
theorem ordered_ofText (h : ofText id path text = .ok doc) (he : doc.element? element = some e) :
    ∀ a ∈ e.attributes, a.Ordered := by
  refine forall_of_ofText (P := fun e => ∀ a ∈ e.attributes, a.Ordered) h ?_ ?_ he
  · intro e e' _ _ _ hattributes he
    rwa [hattributes]
  · intro before content closing after e _ _ he a ha
    obtain ⟨raw, name, rest, attributes, -, -, hread, hsub⟩ := StartTag.exists_of_element he
    exact StartTag.ordered_attributesFrom hread a (hsub ha)

/-- The values of all attributes end inside their start tags, wherever the locator has started. -/
theorem value_ofText (h : ofText id path text = .ok doc) (he : doc.element? element = some e) :
    ∀ a ∈ e.attributes, a.valueSpan.stop ≤ e.tagStop := by
  refine forall_of_ofText (P := fun e => ∀ a ∈ e.attributes, a.valueSpan.stop ≤ e.tagStop) h ?_ ?_ he
  · intro e e' _ _ hstop hattributes he
    rwa [hattributes, hstop]
  · intro before content closing after e htext _ he a ha
    obtain ⟨-, -, hstop, -⟩ := StartTag.element_spec he
    obtain ⟨raw, name, rest, attributes, hraw, -, hread, hsub⟩ := StartTag.exists_of_element he
    have hvalue := StartTag.value_attributesFrom hread (Locator.ends_start raw _).le a (hsub ha)
    rw [hstop]
    refine hvalue.trans ?_
    cases hslice : slice? text (byteLength before)
        (byteLength before + byteLength ('<' :: content ++ closing)) with
    | none =>
      rw [hslice, Option.getD_none] at hraw
      rw [hraw, byteLength_nil]
      omega
    | some cut =>
      have hlength := byteLength_of_slice? hslice
      rw [hslice, Option.getD_some] at hraw
      rw [hraw]
      omega

/-- Without a byte order mark, what is said about an attribute lies inside the start tag. -/
theorem inside_ofText (hmark : Reader.withoutMark text = text) (h : ofText id path text = .ok doc)
    (he : doc.element? element = some e) : ∀ a ∈ e.attributes, a.Inside e.tagStop := by
  refine forall_of_ofText (P := fun e => ∀ a ∈ e.attributes, a.Inside e.tagStop) h ?_ ?_ he
  · intro e e' _ _ hstop hattributes he
    rwa [hattributes, hstop]
  · intro before content closing after e htext _ he a ha
    have htag : slice? text (byteLength before)
        (byteLength before + byteLength ('<' :: content ++ closing)) =
          some ('<' :: content ++ closing) := by
      rw [hmark] at htext
      nth_rewrite 1 [htext]
      exact slice?_append _ _ _
    obtain ⟨-, -, hstop, -⟩ := StartTag.element_spec he
    obtain ⟨raw, name, rest, attributes, hraw, rfl, hread, hsub⟩ := StartTag.exists_of_element he
    rw [htag, Option.getD_some] at hraw
    subst hraw
    rw [hstop]
    exact StartTag.inside_attributesFrom hread StartTag.behind_start a (hsub ha)

end Document

end Markup
end UILayout
