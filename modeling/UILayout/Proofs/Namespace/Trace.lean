import UILayout.Proofs.Namespace.History

/-!
# UILayout.Proofs.Namespace.Trace

An edit leaves no trace but what its changes record. Those who remember what they read from the
namespace trust the changes blindly, so nothing may happen to a desc that they do not touch.

* `Trace.withdrawn`, `Trace.step`, `Trace.unlinks`: each part of an edit records what it does.
* `recorded_edit`: every update of a namespace records all that it has changed.
-/

namespace UILayout
namespace Namespace

open Schema Markup

/-- The changes of an edit from `n` on tell all that has changed. -/
structure Recorded (n : Namespace) (e : Edit) : Prop where
  /-- A desc that is not touched is what it was. -/
  untouched : ∀ {id : DescId} {d : Desc}, n.descs[id]? = some d → e.changes.touches id = false →
    e.names.descs[id]? = some d
  removed : ∀ id : DescId,
    id ∈ e.changes.removed ↔ (∃ d, n.live? id = some d) ∧ e.names.live? id = none
  created : ∀ id : DescId, n.descs[id]? = none → (∃ d, e.names.descs[id]? = some d) →
    id ∈ e.changes.sites
  constants : e.changes.constants = false → e.names.constants = n.constants
  handles : e.changes.handles = false → e.names.handles = n.handles

/-- What holds at every point of an edit of `n` that is about a document. -/
structure Trace (n : Namespace) (document : DocumentId) (e : Edit) : Prop extends Recorded n e where
  keeps : n.Keeps e.names
  /-- No desc comes back into the tree. -/
  stays : ∀ {id : DescId} {d d' : Desc}, n.descs[id]? = some d → e.names.descs[id]? = some d' →
    d'.live = true → d.live = true
  /-- What the document declares is touched, before and after. -/
  away : ∀ {id : DescId} {d : Desc} {site : Site}, e.names.descs[id]? = some d →
    e.changes.touches id = false → site ∈ d.sites → site.element.document ≠ document
  declared : ∀ {id : DescId} {d : Desc}, n.descs[id]? = none → e.names.descs[id]? = some d →
    d.sites ≠ []

section

variable {n : Namespace} {document : DocumentId}

theorem live?_eq_none_iff {id : DescId} :
    n.live? id = none ↔ ∀ {d : Desc}, n.descs[id]? = some d → d.live = false := by
  simp [live?, Option.filter_eq_none_iff]

theorem Trace.withdrawn {e : Edit} (h : Withdrawn n document e) (hc : IsRegister Constant.name n.constants)
    (hh : IsRegister Handle.name n.handles) : Trace n document e := by
  have untouched : ∀ {id : DescId} {d : Desc}, n.descs[id]? = some d →
      e.changes.touches id = false → d.sitesIn document = [] := by
    intro id d hd ht
    by_contra hne
    exact ((Changes.touches_eq_false_iff _ _).1 ht).2.1 (h.sites hd hne)
  refine ⟨⟨?_, ?_, ?_, ?_, ?_⟩, h.keeps, ?_, ?_, ?_⟩
  · intro id d hd ht
    rw [h.descs, hd, Option.map_some, Desc.without_eq_self (untouched hd ht)]
  · intro id
    rw [h.removed]
    refine ⟨fun hmem => absurd hmem List.not_mem_nil, ?_⟩
    rintro ⟨⟨d, hd⟩, hnone⟩
    obtain ⟨hd, hl⟩ := live?_eq_some_iff.1 hd
    have hd' := h.descs id
    rw [hd, Option.map_some] at hd'
    have := live?_eq_none_iff.1 hnone hd'
    rw [Desc.live_without, hl] at this
    cases this
  · rintro id hnone ⟨d', hd'⟩
    obtain ⟨d, hd, -⟩ := h.cases hd'
    rw [hd] at hnone
    cases hnone
  · intro hflag
    rw [h.noConstants] at hflag
    rw [h.constants, dropFrom_eq_self hc hflag]
  · intro hflag
    rw [h.noHandles] at hflag
    rw [h.handles, dropFrom_eq_self hh hflag]
  · intro id d d' hd hd' hl
    rw [h.descs, hd, Option.map_some] at hd'
    cases hd'
    rwa [Desc.live_without] at hl
  · intro id d' site hd' _ hs
    exact h.document_ne hd' hs
  · intro id d' hnone hd'
    obtain ⟨d, hd, -⟩ := h.cases hd'
    rw [hd] at hnone
    cases hnone

/-- A declaration touches the desc it goes to, and what it makes that below. -/
theorem Trace.grow {e e' : Edit} {scope id : DescId} {name : String} {site : Site}
    (h : Trace n document e) (hg : Grown e e' scope name id site) : Trace n document e' := by
  have created : ∀ {j : DescId}, n.descs[j]? = none → (∃ d, e'.names.descs[j]? = some d) →
      j ∈ e'.changes.sites := by
    rintro j hnone ⟨d', hd'⟩
    rcases hg.fresh hd' with hold | rfl
    · exact hg.sites (.inr (h.created j hnone hold))
    · exact hg.sites (.inl rfl)
  refine ⟨⟨?_, ?_, fun j => created, ?_, ?_⟩, h.keeps.trans hg.keeps, ?_, ?_, ?_⟩
  · intro j d hd ht
    obtain ⟨ht, heq⟩ := hg.noted ht
    rw [heq, h.untouched hd ht]
  · intro j
    rw [hg.removed, h.removed]
    refine and_congr_right ?_
    rintro ⟨d, hd⟩
    obtain ⟨d₁, hd₁, -⟩ := h.keeps (live?_eq_some_iff.1 hd).1
    obtain ⟨d₂, hd₂, -⟩ := hg.keeps hd₁
    have hl := hg.live hd₁ hd₂
    simp only [live?, hd₁, hd₂, Option.filter_some, hl]
    split <;> simp
  · intro hflag
    rw [hg.noConstants] at hflag
    rw [hg.constants, h.constants hflag]
  · intro hflag
    rw [hg.noHandles] at hflag
    rw [hg.handles, h.handles hflag]
  · intro j d d' hd hd' hl
    obtain ⟨d₁, hd₁, -⟩ := h.keeps hd
    exact h.stays hd hd₁ (by rw [← hg.live hd₁ hd', hl])
  · intro j d' s hd' ht hs
    obtain ⟨ht, heq⟩ := hg.noted ht
    rw [heq] at hd'
    exact h.away hd' ht hs
  · intro j d' hnone hd'
    rcases hg.fresh hd' with ⟨d, hd⟩ | rfl
    · obtain ⟨s, hs⟩ := List.exists_mem_of_ne_nil _ (h.declared hnone hd)
      exact List.ne_nil_of_mem (hg.more hd hd' hs)
    · obtain ⟨d, hd, -, -, -, s, hs, -⟩ := hg.declared
      rw [hd'] at hd
      cases hd
      exact List.ne_nil_of_mem hs

theorem Trace.step {doc : Document} {st st' : Entering} (h : Trace n doc.id st.edit)
    (hu : Underway n doc st) (hs : Entering.Step doc st st') : Trace n doc.id st'.edit := by
  cases hs with
  | @declare id e scope kind _ name allowed => exact h.grow (hu.sound.grown allowed id e name)
  | constant =>
    exact ⟨⟨h.untouched, h.removed, h.created, nofun, h.handles⟩, h.keeps, h.stays, h.away,
      h.declared⟩
  | handle =>
    exact ⟨⟨h.untouched, h.removed, h.created, h.constants, nofun⟩, h.keeps, h.stays, h.away,
      h.declared⟩
  | other => exact h

theorem Trace.entered (hn : Settled n) (u : Update) : Trace n u.document (u.entered n) := by
  have hw := Trace.withdrawn (withdrawn_spec hn.anchored u.document) hn.constants hn.handles
  cases u with
  | remove document => exact hw
  | sync s doc =>
    rcases Edit.enter_cases s doc (n.withdrawn doc.id) with ⟨-, heq⟩ | ⟨root, el, -, hel, -, heq⟩
    · rw [Update.entered, heq]
      exact hw
    · rw [Update.entered, heq]
      obtain ⟨-, h⟩ := hn.entering s hel (P := fun st => Trace n doc.id st.edit) hw
        fun st st' hu h hs => h.step hu hs
      exact ⟨⟨h.untouched, h.removed, h.created, h.constants, h.handles⟩, h.keeps, h.stays, h.away,
        h.declared⟩

/-- A bare desc was there before: one that has been made in this edit is declared. -/
theorem Trace.unlink {e e' : Edit} (h : Trace n document e) (tree : IsTree e.names)
    {id parent : DescId} {d : Desc}
    (hd : e.names.descs[id]? = some d) (hl : d.live = true) (hb : d.isBare = true)
    (hp : d.parent? = some parent) (hu : Edit.Unlinking e e' id d parent) : Trace n document e' := by
  obtain ⟨pd, hpd, hbelow⟩ := tree.below_of_parent? hd hp
  have hne : parent ≠ id := Nat.ne_of_lt hbelow.lt
  -- what is there after the step was there before it, and no desc but `id` leaves
  have old : ∀ {j : DescId} {x' : Desc}, e'.names.descs[j]? = some x' → ∃ x,
      e.names.descs[j]? = some x ∧ x'.sites = x.sites ∧ (j = id ∧ x'.live = false ∨
        j ≠ id ∧ x'.live = x.live) := by
    intro j x' hx'
    rcases hu.cases hne hd hpd hx' with ⟨rfl, rfl⟩ | ⟨rfl, rfl⟩ | ⟨hj, -, hx⟩
    · exact ⟨d, hd, rfl, .inl ⟨rfl, rfl⟩⟩
    · exact ⟨pd, hpd, rfl, .inr ⟨hne, rfl⟩⟩
    · exact ⟨x', hx, rfl, .inr ⟨hj, rfl⟩⟩
  have untouched : ∀ {j : DescId}, e'.changes.touches j = false →
      e.changes.touches j = false ∧ e'.names.descs[j]? = e.names.descs[j]? := by
    intro j ht
    rw [Changes.touches_eq_false_iff, hu.children, hu.sites, hu.removed, not_or, not_or] at ht
    obtain ⟨⟨hjp, hc⟩, hs, hji, hr⟩ := ht
    exact ⟨(Changes.touches_eq_false_iff _ _).2 ⟨hc, hs, hr⟩, hu.descs_other hji hjp⟩
  have hwas : ∃ x, n.live? id = some x := by
    cases hx : n.descs[id]? with
    | none => exact absurd (d.isBare_iff.1 hb).1 (h.declared hx hd)
    | some x => exact ⟨x, live?_eq_some_iff.2 ⟨hx, h.stays hx hd hl⟩⟩
  refine ⟨⟨?_, ?_, ?_, ?_, ?_⟩, h.keeps.trans hu.keeps, ?_, ?_, ?_⟩
  · intro j x hx ht
    obtain ⟨ht, heq⟩ := untouched ht
    rw [heq, h.untouched hx ht]
  · intro j
    rw [hu.removed, h.removed]
    by_cases hj : j = id
    · subst hj
      refine ⟨fun _ => ⟨hwas, ?_⟩, fun _ => .inl rfl⟩
      simp [live?, hu.descs_self hd]
    · have heq : e'.names.live? j = none ↔ e.names.live? j = none := by
        rw [live?_eq_none_iff, live?_eq_none_iff]
        constructor
        · intro hall x hx
          obtain ⟨x', hx', -⟩ := hu.keeps hx
          obtain ⟨x₀, hx₀, -, ⟨hid, -⟩ | ⟨-, hlive⟩⟩ := old hx'
          · exact absurd hid hj
          · rw [hx] at hx₀
            cases hx₀
            rw [← hlive, hall hx']
        · intro hall x' hx'
          obtain ⟨x, hx, -, ⟨hid, -⟩ | ⟨-, hlive⟩⟩ := old hx'
          · exact absurd hid hj
          · rw [hlive, hall hx]
      simp [hj, heq]
  · rintro j hnone ⟨x', hx'⟩
    obtain ⟨x, hx, -⟩ := old hx'
    rw [hu.sites]
    exact h.created j hnone ⟨x, hx⟩
  · intro hflag
    rw [hu.noConstants] at hflag
    rw [hu.constants, h.constants hflag]
  · intro hflag
    rw [hu.noHandles] at hflag
    rw [hu.handles, h.handles hflag]
  · intro j x x' hx hx' hl'
    obtain ⟨x₁, hx₁, -, ⟨-, hdead⟩ | ⟨-, hlive⟩⟩ := old hx'
    · rw [hl'] at hdead
      cases hdead
    · exact h.stays hx hx₁ (by rw [← hlive, hl'])
  · intro j x' site hx' ht hs
    obtain ⟨ht, heq⟩ := untouched ht
    rw [heq] at hx'
    exact h.away hx' ht hs
  · intro j x' hnone hx'
    obtain ⟨x, hx, hs, -⟩ := old hx'
    rw [hs]
    exact h.declared hnone hx

theorem Trace.unlinks {e e' : Edit} (h : Trace n document e) (hu : Unlinks e e')
    (hs : Sound e.names e.names.documents.get?) : Trace n document e' := by
  induction hu with
  | refl => exact h
  | step hd hl hb hp hu _ ih => exact ih (h.unlink hs.tree hd hl hb hp hu) (hs.unlink hd hl hb hp hu)

theorem trace_edit (hn : Settled n) (u : Update) : Trace n u.document (u.edit n) :=
  (Trace.entered hn u).unlinks (hn.update u).1 (hn.entered u).1

end

theorem recorded_edit (history : List Update) (u : Update) :
    Recorded (after history) (u.edit (after history)) :=
  (trace_edit (settled_after history) u).toRecorded

end Namespace
end UILayout
