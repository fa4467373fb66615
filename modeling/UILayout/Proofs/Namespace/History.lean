import Mathlib.Data.List.Induction
import UILayout.Proofs.Namespace.Settled

/-!
# UILayout.Proofs.Namespace.History

Namespaces as they come about: by updates, each of which brings the namespace up to date with one
document or takes one out.

* `Settled.update`: an update takes a document back, puts it in again and prunes, and leaves the
  namespace settled.
* `settled_after`: every namespace that comes about is settled.
-/

namespace UILayout
namespace Namespace

open Schema Markup

inductive Update where
  | sync (s : Schema) (doc : Document)
  | remove (document : DocumentId)

namespace Update

/-- The document that an update is about. -/
def document : Update → DocumentId
  | .sync _ doc => doc.id
  | .remove document => document

def edit (n : Namespace) : Update → Edit
  | .sync s doc => n.sync s doc
  | .remove document => n.remove document

/-- An update before it prunes. -/
def entered (n : Namespace) : Update → Edit
  | .sync s doc => (n.withdrawn doc.id).enter s doc
  | .remove document => n.withdrawn document

theorem edit_eq_prune (n : Namespace) (u : Update) :
    u.edit n = (u.entered n).prune (n.heldBy u.document) := by
  cases u <;> rfl

end Update

/-- The namespace after some updates, the first of which finds it empty. -/
def after (history : List Update) : Namespace :=
  history.foldl (fun n u => (u.edit n).names) .empty

@[simp] theorem after_append (history : List Update) (u : Update) :
    after (history ++ [u]) = (u.edit (after history)).names := by
  simp [after]

section

variable {n : Namespace} {doc : Document}

/-- `doc` is being put in, after it has been taken back. -/
structure Underway (n : Namespace) (doc : Document) (st : Entering) : Prop where
  sound : Sound st.edit.names (st.filed (n.documents.erase doc.id).get? doc)
  undeclaredIn : UndeclaredIn st.edit.names (n.heldBy doc.id)
  documents : st.edit.names.documents = n.documents.erase doc.id

theorem Settled.underway_start (hn : Settled n) (doc : Document) :
    Underway n doc ⟨n.withdrawn doc.id, .start doc⟩ := by
  have hw := withdrawn_spec hn.anchored doc.id
  have hnone : (n.documents.erase doc.id).get? doc.id = none := by
    rw [OrderedMap.get?_erase, if_pos rfl]
  have hsound := hw.sound hn.toSound
  rw [hw.documents] at hsound
  exact ⟨hsound.start hnone, hw.undeclaredIn hn, hw.documents⟩

theorem Underway.step {st st' : Entering} (h : Underway n doc st) (hs : Entering.Step doc st st') :
    Underway n doc st' := by
  refine ⟨h.sound.step hs, h.undeclaredIn.step h.sound hs, ?_⟩
  rw [← h.documents]
  cases hs with
  | @declare id e scope kind _ name allowed => exact (h.sound.grown allowed id e name).documents
  | constant => rfl
  | handle => rfl
  | other => rfl

/-- What holds when a document has been taken back, and is kept by every step of putting it in, holds
when it has been put in. -/
theorem Settled.entering (hn : Settled n) (s : Schema) {root : ElementId} {el : Element}
    (hel : doc.element? root = some el) {P : Entering → Prop}
    (start : P ⟨n.withdrawn doc.id, .start doc⟩)
    (step : ∀ st st', Underway n doc st → P st → Entering.Step doc st st' → P st') :
    Underway n doc ((n.withdrawn doc.id).entering s doc root el) ∧
      P ((n.withdrawn doc.id).entering s doc root el) := by
  refine Edit.entering_induct (P := fun st => Underway n doc st ∧ P st) hel ?_ ?_
  · exact ⟨hn.underway_start doc, start⟩
  · rintro st st' ⟨hu, hP⟩ hstep
    exact ⟨hu.step hstep, step st st' hu hP hstep⟩

theorem Sound.file {st : Entering} {filed : DocumentId → Option Contribution}
    (h : Sound st.edit.names (st.filed filed doc)) (hdocs : st.edit.names.documents.get? = filed) :
    Sound (Edit.file doc st).names (Edit.file doc st).names.documents.get? := by
  have hfiled : (Edit.file doc st).names.documents.get? = st.filed filed doc := by
    funext document
    rw [Entering.filed, Function.update_apply, ← hdocs]
    exact OrderedMap.get?_put _ _ _ _
  rw [hfiled]
  exact ⟨h.tree.of_descs rfl, ⟨h.anchored.live, h.anchored.root, h.anchored.parent, h.anchored.handle,
    h.anchored.place, h.anchored.held⟩, h.constants, h.handles⟩

theorem Settled.entered (hn : Settled n) (u : Update) :
    Sound (u.entered n).names (u.entered n).names.documents.get? ∧
      UndeclaredIn (u.entered n).names (n.heldBy u.document) := by
  have hw := withdrawn_spec hn.anchored u.document
  cases u with
  | remove document => exact ⟨hw.sound hn.toSound, hw.undeclaredIn hn⟩
  | sync s doc =>
    rcases Edit.enter_cases s doc (n.withdrawn doc.id) with ⟨-, heq⟩ | ⟨root, el, -, hel, -, heq⟩
    · rw [Update.entered, heq]
      exact ⟨hw.sound hn.toSound, hw.undeclaredIn hn⟩
    · rw [Update.entered, heq]
      obtain ⟨hu, -⟩ := hn.entering s hel (P := fun _ => True) trivial fun _ _ _ _ _ => trivial
      exact ⟨hu.sound.file (by rw [hu.documents]), hu.undeclaredIn⟩

theorem Settled.update (hn : Settled n) (u : Update) :
    Unlinks (u.entered n) (u.edit n) ∧ Settled (u.edit n).names := by
  obtain ⟨hsound, hu⟩ := hn.entered u
  rw [u.edit_eq_prune]
  have hbare : BareIn (u.entered n).names (n.heldBy u.document).reverse := by
    intro id d hd hl hroot hb
    exact List.mem_reverse.2 (hu hd hl hroot (d.isBare_iff.1 hb).1)
  obtain ⟨hun, hb⟩ := unlinks_prune hsound hbare
  exact ⟨hun, (hun.sound hsound).settled hb⟩

end

theorem settled_after (history : List Update) : Settled (after history) := by
  induction history using List.reverseRecOn with
  | nil => exact .empty
  | append_singleton history u ih =>
    rw [after_append]
    exact (ih.update u).2

end Namespace
end UILayout
