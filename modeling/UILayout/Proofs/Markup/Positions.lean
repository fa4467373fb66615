import UILayout.Proofs.Markup.Edges
import UILayout.Proofs.Text.Parts

/-!
# UILayout.Proofs.Markup.Positions

Positions in a value and offsets in the document, carried over in both directions. The last edge that a
position passes in the value is the last one that its offset passes in the raw form, so the way back ends
where it began. An offset inside a reference has no position of its own: it stays between the edges of the
reference, which are the two ends of the character that it stands for.

* `Reference.Unescapes.edges_of_reference`: both ends of a reference are edges.
* `Attribute.Writes.same_side`: on the way back, a position stays on its side of every edge.
* `Attribute.Writes.corresponds`: the two directions are inverse to each other.
-/

namespace UILayout
namespace Markup

open Text

namespace Reference

variable {before after name name' rest value : List Char} {c : Char}

/-! ## Where references stand -/

/-- A semicolon that ends a reference does not stand behind the next ampersand. -/
theorem cut_before_reference {front : List Char} (hamp : '&' ∉ name')
    (h : name' ++ ';' :: rest = front ++ '&' :: (name ++ ';' :: after)) :
    ∃ behind, front = name' ++ ';' :: behind ∧ rest = behind ++ '&' :: (name ++ ';' :: after) := by
  rcases List.append_eq_append_iff.1 h with ⟨more, rfl, hmore⟩ | ⟨more, rfl, hmore⟩
  · cases more with
    | nil => cases hmore
    | cons d more =>
      obtain ⟨rfl, hrest⟩ := List.cons.inj hmore
      exact ⟨more, rfl, hrest⟩
  · cases more with
    | nil => cases hmore
    | cons d more =>
      obtain rfl := (List.cons.inj hmore).1
      exact absurd (List.mem_append_right _ List.mem_cons_self) hamp

/-- What is written in front of a reference is a value by itself, behind which the character stands that
the reference stands for; and the two ends of the reference are edges. -/
theorem Unescapes.edges_of_reference
    (h : Unescapes (before ++ '&' :: (name ++ ';' :: after)) value) (hsemi : ';' ∉ name) :
    ∃ front c back, value = front ++ c :: back ∧ Unescapes before front ∧ decode 0 name = .ok c ∧
      ∀ decoded pos, ∀ e ∈ [(decoded + byteLength front, pos + byteLength before),
          (decoded + byteLength front + c.utf8Size, pos + byteLength before + (byteLength name + 2))],
        e ∈ edgesFrom decoded pos (before ++ '&' :: (name ++ ';' :: after)) := by
  generalize hraw : before ++ '&' :: (name ++ ';' :: after) = raw at h
  induction h generalizing before with
  | nil => cases before <;> cases hraw
  | @reference name' rest value c hsemi' hamp hc hrest ih =>
    cases before with
    | nil =>
      have hcut := congrArg splitName (List.cons.inj hraw).2
      rw [splitName_append hsemi, splitName_append hsemi'] at hcut
      cases hcut
      refine ⟨[], c, value, rfl, .nil, hc, fun decoded pos e he => ?_⟩
      rw [edgesFrom_reference hsemi hc]
      simp only [List.mem_cons, List.not_mem_nil, or_false] at he
      rcases he with rfl | rfl <;> simp
    | cons d before =>
      obtain ⟨rfl, htail⟩ := List.cons.inj hraw
      obtain ⟨behind, rfl, rfl⟩ := cut_before_reference hamp htail.symm
      obtain ⟨front, c', back, rfl, hfront, hc', hedges⟩ := ih rfl
      refine ⟨c :: front, c', back, rfl, .reference hsemi' hamp hc hfront, hc',
        fun decoded pos e he => ?_⟩
      rw [edgesFrom_reference hsemi' hc]
      refine List.mem_cons_of_mem _ (List.mem_cons_of_mem _ (hedges _ _ e ?_))
      have hsplit := byteLength_of_splitName (splitName_append hsemi' behind)
      rw [hsplit, byteLength_cons] at he
      simpa only [Nat.add_assoc] using he
  | @char d rest value hd hrest ih =>
    cases before with
    | nil => exact absurd (List.cons.inj hraw).1.symm hd
    | cons d' before =>
      obtain ⟨rfl, htail⟩ := List.cons.inj hraw
      obtain ⟨front, c', back, rfl, hfront, hc', hedges⟩ := ih htail
      refine ⟨d' :: front, c', back, rfl, .char hd hfront, hc', fun decoded pos e he => ?_⟩
      rw [edgesFrom, if_neg hd]
      refine hedges _ _ e ?_
      rw [byteLength_cons, byteLength_cons] at he
      simpa only [Nat.add_assoc] using he

end Reference

namespace Attribute

open Reference

/-! ## The edges around an offset -/

/-- The first edge that is not passed; with none left, the end. -/
def nextEdge (within : Nat) (es : List (Nat × Nat)) (last : Nat × Nat) : Nat × Nat :=
  (es.dropWhile fun e => e.2 ≤ within).head?.getD last

section

variable {es : List (Nat × Nat)} {last : Nat × Nat}

theorem nextEdge_mem (within : Nat) (es : List (Nat × Nat)) (last : Nat × Nat) :
    nextEdge within es last = last ∨
      nextEdge within es last ∈ es ∧ within < (nextEdge within es last).2 := by
  have hhead := List.head?_dropWhile_not (fun e => decide (e.2 ≤ within)) es
  unfold nextEdge
  cases h : es.dropWhile fun e => decide (e.2 ≤ within) with
  | nil => exact .inl rfl
  | cons next more =>
    rw [h] at hhead
    exact .inr ⟨(List.dropWhile_sublist _).subset (h ▸ List.mem_cons_self), by simpa using hhead⟩

/-- The edges that are passed stand before the next one, and it stands before the others. -/
theorem nextEdge_spec (hes : ((0, 0) :: es).Pairwise Before) (hlast : ∀ f ∈ (0, 0) :: es, Before f last)
    (within : Nat) : ∀ f ∈ (0, 0) :: es, (f.2 ≤ within → Before f (nextEdge within es last)) ∧
      (within < f.2 → Before (nextEdge within es last) f) := by
  obtain ⟨passed, hsplit, hpassed⟩ := lastEdge_split ranks_snd within es
  have hbehind : ∀ f ∈ es.dropWhile fun e => e.2 ≤ within, within < f.2 :=
    fun f => lt_key_of_mem_dropWhile ranks_snd (List.pairwise_cons.1 hes).2
  unfold nextEdge
  rw [List.append_cons] at hsplit
  rw [hsplit] at hes hlast ⊢
  obtain ⟨-, hlater, hover⟩ := List.pairwise_append.1 hes
  intro f hf
  cases h : es.dropWhile fun e => decide (e.2 ≤ within) with
  | nil =>
    rw [h, List.append_nil] at hf
    have hle := hpassed f hf
    exact ⟨fun _ => hlast f (List.mem_append_left _ hf), fun hlt => absurd hlt (Nat.not_lt.2 hle)⟩
  | cons next more =>
    rw [h] at hf hlater hover hbehind
    rcases List.mem_append.1 hf with hf | hf
    · have hle := hpassed f hf
      exact ⟨fun _ => hover f hf next List.mem_cons_self, fun hlt => absurd hlt (Nat.not_lt.2 hle)⟩
    · refine ⟨fun hle => absurd hle (Nat.not_le.2 (hbehind f hf)), fun _ => ?_⟩
      rcases hf with _ | ⟨_, hf⟩
      · exact .refl _
      · exact (List.pairwise_cons.1 hlater).1 f hf

end

/-! ## Both directions -/

/-- The attribute is written with `raw` between its quotes, and all references in it are valid. -/
structure Writes (a : Attribute) (raw : List Char) : Prop where
  value : unescape raw = .ok a.value.toList
  escapes : a.escapes = edges raw
  stop : a.stop = a.contentStart + byteLength raw + 1

variable {a : Attribute} {raw : List Char} {p q offset later : Nat}

namespace Writes

theorem before_end (h : a.Writes raw) :
    ∀ f ∈ (0, 0) :: edges raw, Before f (a.value.utf8ByteSize, byteLength raw) := by
  obtain ⟨hle, hends⟩ := (unescape_eq_ok_iff.1 h.value).before_end 0 0
  rw [byteLength_toList] at hle hends
  rw [Nat.zero_add, Nat.zero_add] at hends
  rintro f (_ | ⟨_, hf⟩)
  · exact ⟨Nat.zero_le _, hle⟩
  · exact hends f hf

/-- Offsets between the quotes have a position: as far behind the last edge as the offset is, but not
behind the next one. -/
theorem valuePosition?_eq_some_iff (h : a.Writes raw) : a.valuePosition? offset = some p ↔
    (a.contentStart ≤ offset ∧ offset < a.stop) ∧
      p = min ((lastEdge (·.2) (offset - a.contentStart) (edges raw)).1 +
          (offset - a.contentStart - (lastEdge (·.2) (offset - a.contentStart) (edges raw)).2))
        (nextEdge (offset - a.contentStart) (edges raw) (a.value.utf8ByteSize, byteLength raw)).1 := by
  have hstop := h.stop
  unfold valuePosition? nextEdge
  rw [h.escapes]
  dsimp only
  split
  · exact iff_of_false nofun fun hoffset => by omega
  · have hoffset : a.contentStart ≤ offset ∧ offset < a.stop := by omega
    rw [and_iff_right hoffset, Option.some.injEq, eq_comm]
    cases (edges raw).dropWhile fun e => decide (e.2 ≤ offset - a.contentStart) <;> rfl

theorem isSome_valuePosition?_iff (h : a.Writes raw) :
    (a.valuePosition? offset).isSome ↔ a.contentStart ≤ offset ∧ offset < a.stop := by
  rw [Option.isSome_iff_exists]
  exact ⟨fun ⟨_, hp⟩ => (h.valuePosition?_eq_some_iff.1 hp).1,
    fun hoffset => ⟨_, h.valuePosition?_eq_some_iff.2 ⟨hoffset, rfl⟩⟩⟩

/-- Behind an edge, positions are behind it in the value, and in front of it they are in front. -/
theorem same_side (h : a.Writes raw) (hp : a.valuePosition? offset = some p) :
    ∀ f ∈ edges raw, (a.contentStart + f.2 ≤ offset → f.1 ≤ p) ∧
      (offset ≤ a.contentStart + f.2 → p ≤ f.1) := by
  obtain ⟨hoffset, rfl⟩ := h.valuePosition?_eq_some_iff.1 hp
  generalize hwithin : offset - a.contentStart = within
  intro f hf
  have hf := List.mem_cons_of_mem (0, 0) hf
  obtain ⟨hlast, -⟩ := lastEdge_spec ranks_snd (pairwise_edges raw) within f hf
  obtain ⟨hbehind, hfront⟩ := nextEdge_spec (pairwise_edges raw) h.before_end within f hf
  have hpassed := key_lastEdge_le ranks_snd within (edges raw)
  refine ⟨fun hle => ?_, fun hle => ?_⟩
  · have hle : f.2 ≤ within := by omega
    exact le_min ((hlast hle).1.trans (Nat.le_add_right _ _)) (hbehind hle).1
  · rcases Nat.lt_or_eq_of_le (show within ≤ f.2 by omega) with hlt | heq
    · exact (min_le_right _ _).trans (hfront hlt).1
    · obtain ⟨hfst, hahead⟩ := hlast heq.ge
      omega

theorem le_of_valuePosition? (h : a.Writes raw) (hp : a.valuePosition? offset = some p) :
    p ≤ a.value.utf8ByteSize := by
  obtain ⟨-, rfl⟩ := h.valuePosition?_eq_some_iff.1 hp
  refine (min_le_right _ _).trans ?_
  rcases nextEdge_mem (offset - a.contentStart) (edges raw) (a.value.utf8ByteSize, byteLength raw) with
    hnext | ⟨hnext, -⟩
  · rw [hnext]
  · exact (h.before_end _ (List.mem_cons_of_mem _ hnext)).1

theorem valuePosition?_mono (h : a.Writes raw) (hp : a.valuePosition? offset = some p)
    (hq : a.valuePosition? later = some q) (hle : offset ≤ later) : p ≤ q := by
  have hbound := h.le_of_valuePosition? hp
  have hside := h.same_side hp
  obtain ⟨hoffset, hp⟩ := h.valuePosition?_eq_some_iff.1 hp
  obtain ⟨-, rfl⟩ := h.valuePosition?_eq_some_iff.1 hq
  refine le_min ?_ ?_
  · have hmem := lastEdge_mem ranks_snd (later - a.contentStart) (edges raw)
    have hpassed := key_lastEdge_le ranks_snd (later - a.contentStart) (edges raw)
    by_cases hsame : (lastEdge (·.2) (later - a.contentStart) (edges raw)).2 ≤ offset - a.contentStart
    · -- The two offsets pass the same edges.
      obtain ⟨hfst, hahead⟩ := (lastEdge_spec ranks_snd (pairwise_edges raw) _ _ hmem).1 hsame
      obtain ⟨hfst', hahead'⟩ := lastEdge_before ranks_snd (pairwise_edges raw)
        (show offset - a.contentStart ≤ later - a.contentStart by omega)
      omega
    · rcases List.mem_cons.1 hmem with hzero | hmem
      · rw [hzero] at hsame
        exact absurd (Nat.zero_le _) hsame
      · exact ((hside _ hmem).2 (by omega)).trans (Nat.le_add_right _ _)
  · rcases nextEdge_mem (later - a.contentStart) (edges raw) (a.value.utf8ByteSize, byteLength raw) with
      hnext | ⟨hnext, hlt⟩
    · rwa [hnext]
    · exact (hside _ hnext).2 (by omega)

theorem sourceOffset_eq (h : a.Writes raw) (p : Nat) : a.sourceOffset p =
    a.contentStart + (lastEdge (·.1) p (edges raw)).2 + (p - (lastEdge (·.1) p (edges raw)).1) := by
  rw [sourceOffset, h.escapes]

theorem sourceOffset_lt (h : a.Writes raw) (hpq : p < q) :
    a.sourceOffset p < a.sourceOffset q := by
  obtain ⟨hfst, hahead⟩ := lastEdge_before ranks_fst (pairwise_edges raw) hpq.le
  have hp := le_lastEdge p (edges raw)
  have hq := le_lastEdge q (edges raw)
  rw [h.sourceOffset_eq, h.sourceOffset_eq]
  omega

theorem sourceOffset_lt_stop (h : a.Writes raw) (hp : p ≤ a.value.utf8ByteSize) :
    a.contentStart ≤ a.sourceOffset p ∧ a.sourceOffset p < a.stop := by
  have hle := sourceOffset_le_of_unescape h.escapes h.value (hp.trans_eq (byteLength_toList _).symm)
  have hstart := h.sourceOffset_eq p
  have hstop := h.stop
  omega

/-- The offset of a position passes the same edges as the position does, so the way back is the way. -/
theorem valuePosition?_sourceOffset (h : a.Writes raw) (hp : p ≤ a.value.utf8ByteSize) :
    a.valuePosition? (a.sourceOffset p) = some p := by
  refine h.valuePosition?_eq_some_iff.2 ⟨h.sourceOffset_lt_stop hp, ?_⟩
  have hoffset := h.sourceOffset_eq p
  have hmem := lastEdge_mem ranks_fst p (edges raw)
  have hle := le_lastEdge p (edges raw)
  have hspec := lastEdge_spec ranks_fst (pairwise_edges raw) p
  generalize lastEdge (·.1) p (edges raw) = edge at hoffset hmem hle hspec
  generalize hwithin : a.sourceOffset p - a.contentStart = within
  have hmem' := lastEdge_mem ranks_snd within (edges raw)
  have hle' := key_lastEdge_le ranks_snd within (edges raw)
  obtain ⟨hfst, hahead⟩ :=
    (lastEdge_spec ranks_snd (pairwise_edges raw) within edge hmem).1 (by omega)
  generalize lastEdge (·.2) within (edges raw) = edge' at hmem' hle' hfst hahead
  have hback : Before edge' edge := by
    by_cases hpassed : edge'.1 ≤ p
    · exact (hspec edge' hmem').1 hpassed
    · obtain ⟨-, hahead'⟩ := (hspec edge' hmem').2 (Nat.lt_of_not_le hpassed)
      omega
  have hnext : p ≤ (nextEdge within (edges raw) (a.value.utf8ByteSize, byteLength raw)).1 := by
    rcases nextEdge_mem within (edges raw) (a.value.utf8ByteSize, byteLength raw) with hn | ⟨hn, hlt⟩
    · rwa [hn]
    · by_contra hpassed
      have hbehind := ((hspec _ (List.mem_cons_of_mem _ hn)).1 (by omega)).snd_le
      omega
  obtain ⟨hfst', hahead'⟩ := hback
  omega

/-- The offsets of a reference lie at the character that it stands for. -/
theorem reference_spec {before name after : List Char} (hsemi : ';' ∉ name)
    (h : a.Writes (before ++ '&' :: (name ++ ';' :: after))) :
    ∃ front c back, a.value.toList = front ++ c :: back ∧ unescape before = .ok front ∧
      decode 0 name = .ok c ∧ ∀ offset, a.contentStart + byteLength before ≤ offset →
        offset ≤ a.contentStart + byteLength before + (byteLength name + 2) →
        ∃ p, a.valuePosition? offset = some p ∧ byteLength front ≤ p ∧
          p ≤ byteLength front + c.utf8Size := by
  obtain ⟨front, c, back, hvalue, hfront, hc, hedges⟩ :=
    (unescape_eq_ok_iff.1 h.value).edges_of_reference hsemi
  refine ⟨front, c, back, hvalue, unescape_eq_ok_iff.2 hfront, hc, fun offset hopens hends => ?_⟩
  obtain ⟨hopening, hclosing⟩ : _ ∧ _ := by simpa using hedges 0 0
  have hstop := h.stop
  rw [byteLength_append, byteLength_of_splitName (splitName_append hsemi after)] at hstop
  have hoffset : a.contentStart ≤ offset ∧ offset < a.stop := ⟨by omega, by omega⟩
  obtain ⟨p, hp⟩ := Option.isSome_iff_exists.1 (h.isSome_valuePosition?_iff.2 hoffset)
  refine ⟨p, hp, (h.same_side hp _ hopening).1 hopens, (h.same_side hp _ hclosing).2 ?_⟩
  rwa [← Nat.add_assoc]

end Writes

/-- The positions in a value and the offsets between its quotes are carried over to each other. -/
structure Corresponds (a : Attribute) (raw : List Char) : Prop where
  back : ∀ p ≤ a.value.utf8ByteSize, a.valuePosition? (a.sourceOffset p) = some p
  strict : ∀ p q, p < q → a.sourceOffset p < a.sourceOffset q
  between : ∀ p ≤ a.value.utf8ByteSize, a.contentStart ≤ a.sourceOffset p ∧ a.sourceOffset p < a.stop
  defined : ∀ offset,
    (a.valuePosition? offset).isSome ↔ a.contentStart ≤ offset ∧ offset < a.stop
  bounded : ∀ offset p, a.valuePosition? offset = some p → p ≤ a.value.utf8ByteSize
  mono : ∀ offset later p q, offset ≤ later → a.valuePosition? offset = some p →
    a.valuePosition? later = some q → p ≤ q
  /-- Where a reference is written, the positions are those of the character that it stands for. -/
  reference : ∀ before name after, raw = before ++ '&' :: (name ++ ';' :: after) → ';' ∉ name →
    ∃ front c back, a.value.toList = front ++ c :: back ∧ unescape before = .ok front ∧
      decode 0 name = .ok c ∧ ∀ offset, a.contentStart + byteLength before ≤ offset →
        offset ≤ a.contentStart + byteLength before + (byteLength name + 2) →
        ∃ p, a.valuePosition? offset = some p ∧ byteLength front ≤ p ∧
          p ≤ byteLength front + c.utf8Size

/-- When all references of a value are valid, its two maps are inverse to each other, wherever it
stands. -/
theorem Writes.corresponds (h : a.Writes raw) : a.Corresponds raw where
  back _ hp := h.valuePosition?_sourceOffset hp
  strict _ _ hpq := h.sourceOffset_lt hpq
  between _ hp := h.sourceOffset_lt_stop hp
  defined _ := h.isSome_valuePosition?_iff
  bounded _ _ hp := h.le_of_valuePosition? hp
  mono _ _ _ _ hle hp hq := h.valuePosition?_mono hp hq hle
  reference _ _ _ hraw hsemi := (hraw ▸ h).reference_spec hsemi

/-- Two references side by side, one of which is longer than its character by four bytes. -/
theorem corresponds_adjacent :
    let a : Attribute :=
      ⟨"text", "<aé>", 3, 25, 8, [(0, 0), (1, 4), (2, 5), (4, 11), (4, 11), (5, 15)]⟩
    a.Writes "&lt;a&#xe9;&gt;".toList ∧ a.Corresponds "&lt;a&#xe9;&gt;".toList := by
  intro a
  have h : a.Writes "&lt;a&#xe9;&gt;".toList := ⟨by decide +kernel, by decide +kernel, by decide +kernel⟩
  exact ⟨h, h.corresponds⟩

end Attribute
end Markup
end UILayout
