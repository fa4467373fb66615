import UILayout.Proofs.Selector.Cut

/-!
# UILayout.Proofs.Selector.Placement

Where the parts of a selector expression stand. Every span is a stretch of the text, a name is cut out
at its span, and the fragments of a path stand apart, with a slash between them at least. So an offset
touches one fragment at most, and every fragment has a text.

* `Sorted.covers`: a fragment reaches over the tokens that it is read from.
* `pairwise_fragments`: fragments stand apart.
* `fragmentAt?_eq_some_iff`: the fragment at an offset is the only one there.
* `wellPlaced_ofText`: all spans of a path, and of a bind.
-/

namespace UILayout

namespace Text

def Span.Covers (s inner : Span) : Prop := s.start ≤ inner.start ∧ inner.stop ≤ s.stop

end Text

namespace Selector

open Text

/-- The names in a step and in its parameters. -/
def Step.names (step : Step) : List Ident :=
  step.name?.toList ++ step.params.flatMap fun p => [p.key, p.value]

/-- What a name says stands in the text where it says. -/
def Ident.IsCut (i : Ident) (text : List Char) : Prop :=
  slice? text i.span.start i.span.stop = some i.text.toList

structure Path.WellPlaced (p : Path) (text : List Char) : Prop where
  inside : ∀ s ∈ p.spans, s.Inside text ∧ s.stop ≤ byteLength text
  names : ∀ f ∈ p.fragments, ∀ name ∈ f.step.names, name.IsCut text ∧ f.span.Covers name.span
  apart : p.fragments.Pairwise fun f g => f.span.stop < g.span.start
  fragmentAt? : ∀ offset i, p.fragmentAt? offset = some i ↔
    ∃ f, p.fragments[i]? = some f ∧ f.span.touches offset ∧
      ∀ j g, p.fragments[j]? = some g → g.span.touches offset → j = i
  fragmentTexts : List.Forall₂
    (fun f part => slice? text f.span.start f.span.stop = some part.toList ∧ part ≠ "")
    p.fragments (p.fragmentTexts text)

variable {text : List Char} {m : Missing} {tokens used : List Token} {t : Token} {s : Span}

/-! ## Fragments and their names -/

theorem Token.Sorted.covers (h : Token.Sorted text tokens) (hs : Stretch tokens s) (ht : t ∈ tokens) :
    s.Covers t.span := by
  obtain ⟨first, last, hfirst, hlast, rfl⟩ := hs
  refine ⟨?_, ?_⟩
  · obtain ⟨rest, rfl⟩ := List.head?_eq_some_iff.1 hfirst
    rcases List.mem_cons.1 ht with rfl | ht
    · exact Nat.le_refl _
    · have hnext := (List.pairwise_cons.1 h.pairwise).1 t ht
      exact (h.inside first List.mem_cons_self).ordered.trans hnext
  · obtain ⟨front, rfl⟩ := List.getLast?_eq_some_iff.1 hlast
    rcases List.mem_append.1 ht with ht | ht
    · have hnext := (List.pairwise_append.1 h.pairwise).2.2 t ht last List.mem_cons_self
      exact hnext.trans (h.inside last (by simp)).ordered
    · rw [List.mem_singleton.1 ht]

/-- A name in a step is what one of its tokens spells, or a handle without its `$`. -/
theorem Fragment.ReadFrom.name {f : Fragment} (h : f.ReadFrom used) {name : Ident}
    (hname : name ∈ f.step.names) :
    ∃ t ∈ used, name = t.ident ∨ t.kind = .handle ∧ name = t.handle := by
  rcases List.mem_append.1 hname with hname | hname
  · rcases h.name? name (Option.mem_toList.1 hname) with ⟨t, ht, hident⟩ | ⟨t, ht, hhandle⟩
    · exact ⟨t, ht, .inl hident⟩
    · exact ⟨t, ht, .inr hhandle⟩
  · obtain ⟨p, hp, hname⟩ := List.mem_flatMap.1 hname
    obtain ⟨⟨key, hkey, hkeyText⟩, ⟨value, hvalue, hvalueText⟩, -⟩ := h.params p hp
    rcases hname with _ | ⟨_, _ | ⟨_, ⟨⟩⟩⟩
    · exact ⟨key, hkey, .inl hkeyText⟩
    · exact ⟨value, hvalue, .inl hvalueText⟩

theorem isCut_of_readFrom {f : Fragment} (h : f.ReadFrom used) (hused : used.Sublist (Token.tokens text))
    {name : Ident} (hname : name ∈ f.step.names) : name.IsCut text ∧ f.span.Covers name.span := by
  have hsorted := (Token.sorted_tokens text).sublist hused
  obtain ⟨t, ht, rfl | ⟨hkind, rfl⟩⟩ := h.name hname
  · exact ⟨(Token.slice?_of_mem_tokens (hused.subset ht)).1, hsorted.covers h.span ht⟩
  · obtain ⟨hstart, hstop⟩ := hsorted.covers h.span ht
    exact ⟨Token.slice?_handle_of_mem_tokens (hused.subset ht) hkind,
      hstart.trans (Nat.le_add_right _ 1), hstop⟩

/-- A fragment has a text. -/
theorem exists_slice?_of_readFrom {f : Fragment} (h : f.ReadFrom used)
    (hused : used.Sublist (Token.tokens text)) :
    ∃ part, slice? text f.span.start f.span.stop = some part ∧ part ≠ [] := by
  have hsorted := (Token.sorted_tokens text).sublist hused
  obtain ⟨hspan, -⟩ := h.inside hsorted
  obtain ⟨part, hpart⟩ := exists_slice? hspan.start hspan.stop hspan.ordered
  refine ⟨part, hpart, ?_⟩
  rintro rfl
  obtain ⟨first, last, hfirst, -⟩ := h.span
  have hmem := List.mem_of_head? hfirst
  have hlt := Token.start_lt_stop_of_mem_tokens (hused.subset hmem)
  obtain ⟨hstart, hstop⟩ := hsorted.covers h.span hmem
  have hlength := byteLength_of_slice? hpart
  rw [byteLength_nil] at hlength
  omega

/-! ## Fragments of a path -/

namespace Grammar

theorem readFrom_of_mem_path {f : Fragment} (h : f ∈ (path m tokens).fragments) :
    ∃ used, used <:+: tokens ∧ f.ReadFrom used := by
  obtain ⟨s, hs, hf⟩ := List.mem_filterMap.1 h
  exact (pathSegments_spec m tokens s hs).fragment? f hf

/-- Between two fragments of a path stands a slash. -/
theorem pairwise_fragments (htokens : tokens.Sublist (Token.tokens text)) :
    (path m tokens).fragments.Pairwise fun f g => f.span.stop < g.span.start := by
  rw [path, List.filterMap_eq_flatMap_toList]
  induction tokens using path_induct with
  | nil => exact .nil
  | single hnone =>
    rw [pathSegments_of_noSlash hnone, List.flatMap_singleton]
    exact Option.pairwise_toList
  | last hfront hslash =>
    rw [pathSegments_append hslash hfront, if_pos rfl, List.flatMap_cons]
    simp
  | @more front slash rest hfront hslash hrest ih =>
    have hbehind : (slash :: rest).Sublist (Token.tokens text) :=
      (List.sublist_append_right front _).trans htokens
    rw [pathSegments_append hslash hfront, if_neg hrest, List.flatMap_cons]
    refine List.pairwise_append.2 ⟨Option.pairwise_toList,
      ih ((List.sublist_cons_self slash rest).trans hbehind), fun f hf g hg => ?_⟩
    obtain ⟨used, hused, hfread⟩ := (readFrom_segmentBefore m front slash).fragment? f
      (Option.mem_toList.1 hf)
    rw [← List.filterMap_eq_flatMap_toList] at hg
    obtain ⟨s, hs, hg⟩ := List.mem_filterMap.1 hg
    obtain ⟨used', hused', hgread⟩ := (pathSegments_spec m rest s hs).fragment? g hg
    obtain ⟨_, last, -, hlast, hfspan⟩ := hfread.span
    obtain ⟨first, _, hfirst, -, hgspan⟩ := hgread.span
    have hpairwise := ((Token.sorted_tokens text).sublist htokens).pairwise
    obtain ⟨-, hrestPairwise, hcross⟩ := List.pairwise_append.1 hpairwise
    have hbefore := hcross last (hused.subset (List.mem_of_getLast? hlast)) slash List.mem_cons_self
    have hafter := (List.pairwise_cons.1 hrestPairwise).1 first
      (hused'.subset (List.mem_of_head? hfirst))
    have hpos := Token.start_lt_stop_of_mem_tokens (hbehind.subset List.mem_cons_self)
    rw [hfspan, hgspan]
    exact hbefore.trans_lt (hpos.trans_le hafter)

end Grammar

/-- Of fragments that stand apart, an offset touches one at most. -/
theorem fragmentAt?_eq_some_iff {p : Path}
    (h : p.fragments.Pairwise fun f g => f.span.stop < g.span.start) (offset i : Nat) :
    p.fragmentAt? offset = some i ↔
      ∃ f, p.fragments[i]? = some f ∧ f.span.touches offset ∧
        ∀ j g, p.fragments[j]? = some g → g.span.touches offset → j = i := by
  have hnever : ∀ {i j : Nat} {f g : Fragment}, p.fragments[i]? = some f → p.fragments[j]? = some g →
      f.span.touches offset → g.span.touches offset → ¬ i < j := by
    intro i j f g hf hg hif hjg hlt
    obtain ⟨hi, rfl⟩ := List.getElem?_eq_some_iff.1 hf
    obtain ⟨hj, rfl⟩ := List.getElem?_eq_some_iff.1 hg
    have happart := List.pairwise_iff_getElem.1 h i j hi hj hlt
    simp only [Span.touches, Bool.and_eq_true, decide_eq_true_eq] at hif hjg
    omega
  rw [Path.fragmentAt?, List.findIdx?_eq_some_iff_getElem]
  constructor
  · rintro ⟨hi, htouches, -⟩
    have hf := List.getElem?_eq_getElem hi
    refine ⟨_, hf, htouches, fun j g hg hjg => ?_⟩
    exact Nat.le_antisymm (Nat.le_of_not_lt (hnever hf hg htouches hjg))
      (Nat.le_of_not_lt (hnever hg hf hjg htouches))
  · rintro ⟨f, hf, htouches, honly⟩
    obtain ⟨hi, rfl⟩ := List.getElem?_eq_some_iff.1 hf
    refine ⟨hi, htouches, fun j hlt hjg => Nat.ne_of_lt hlt ?_⟩
    exact honly j _ (List.getElem?_eq_getElem (hlt.trans hi)) hjg

theorem Path.wellPlaced {p : Path} (hinside : ∀ s ∈ p.spans, s.Inside text)
    (htokens : tokens.Sublist (Token.tokens text)) (hp : p.fragments = (Grammar.path m tokens).fragments) :
    p.WellPlaced text := by
  have hreads : ∀ f ∈ p.fragments, ∃ used, used.Sublist (Token.tokens text) ∧ f.ReadFrom used := by
    intro f hf
    rw [hp] at hf
    obtain ⟨used, hused, hread⟩ := Grammar.readFrom_of_mem_path hf
    exact ⟨used, hused.sublist.trans htokens, hread⟩
  have hapart := Grammar.pairwise_fragments (m := m) htokens
  rw [← hp] at hapart
  refine ⟨fun s hs => ⟨hinside s hs, (hinside s hs).stop.le_byteLength⟩, fun f hf name hname => ?_,
    hapart, fragmentAt?_eq_some_iff hapart, ?_⟩
  · obtain ⟨used, hused, hread⟩ := hreads f hf
    exact isCut_of_readFrom hread hused hname
  · rw [Path.fragmentTexts, List.forall₂_map_right_iff, List.forall₂_same]
    intro f hf
    obtain ⟨used, hused, hread⟩ := hreads f hf
    obtain ⟨part, hpart, hne⟩ := exists_slice?_of_readFrom hread hused
    rw [hpart]
    simpa using hne

theorem mem_of_property {length : Nat} {name : Ident}
    (h : (Grammar.property length tokens).1 = some name) : ∃ t ∈ tokens, name = t.ident := by
  unfold Grammar.property at h
  split at h
  · cases h
  · split at h
    · rename_i dot rest name' extra hname
      obtain ⟨t, rfl, -, rfl⟩ := Grammar.ident?_eq_some_iff.1 hname
      exact ⟨t, by simp, (Option.some.inj h).symm⟩
    · cases h

/-- Where everything stands that reading an expression gives, as a path and as a bind. -/
theorem wellPlaced_ofText (text : List Char) :
    (Path.ofText text).WellPlaced text ∧ (Bind.ofText text).target.WellPlaced text ∧
      (∀ s ∈ (Bind.ofText text).spans, s.Inside text ∧ s.stop ≤ byteLength text) ∧
      ∀ name, (Bind.ofText text).property? = some name → name.IsCut text := by
  have hbind := Bind.inside_ofText text
  have htarget : ∀ s ∈ (Bind.ofText text).target.spans, s.Inside text := fun s hs =>
    hbind s (List.mem_append_left _ (List.mem_append_left _ (List.mem_cons_of_mem _ hs)))
  refine ⟨Path.wellPlaced (Path.inside_ofText text).spans (List.Sublist.refl _) rfl,
    Path.wellPlaced htarget (List.takeWhile_sublist _) rfl,
    fun s hs => ⟨hbind s hs, (hbind s hs).stop.le_byteLength⟩, fun name hname => ?_⟩
  obtain ⟨t, ht, rfl⟩ := mem_of_property hname
  exact (Token.slice?_of_mem_tokens ((List.dropWhile_sublist _).subset ht)).1

end Selector
end UILayout
