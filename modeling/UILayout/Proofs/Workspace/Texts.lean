import UILayout.Proofs.Namespace.Independent
import UILayout.Proofs.Workspace.Session
import UILayout.Schema.Load

/-!
# UILayout.Proofs.Workspace.Texts

Sessions in which documents come as texts and schemas as definitions. Every document that a workspace
has is then what was read from some text, bound to the schema that the workspace has now, and nothing
else has ever entered its namespace.

* `document?_foldl_rebind`: what a new schema does to the documents.
* `Textual.run`: every command keeps what the documents are.
* `textual_after`, `read_after`: what the documents are after every session.
-/

namespace UILayout

open Schema Markup Namespace

/-- A schema that has been compiled from a definition. -/
def Schema.Loaded (s : Schema) : Prop := ∃ definition, Schema.ofDefinition definition = .ok s

/-- A document as it is read from some text. -/
def Markup.Document.IsRead (doc : Document) : Prop :=
  ∃ text, Document.ofText doc.id doc.path text = .ok doc

namespace Workspace

/-- A command that sets no document which has not been read, and no schema which has not been loaded. -/
def Command.FromTexts : Command → Prop
  | .setDocument _ => False
  | .setSchema s => s.Loaded
  | _ => True

/-- A document as it was read from a text that one of the commands sets, before it is bound. -/
def ReadIn (commands : List Command) (read : Document) : Prop :=
  ∃ text, .setFile read.path text ∈ commands ∧
    Document.ofText read.id read.path text = .ok read

/-- A command that sets no document which has not been read. -/
def Command.SetsRead : Command → Prop
  | .setDocument doc => doc.IsRead
  | _ => True

/-- The documents of a context, and all that has entered its namespace, are documents that have been
read, bound to its schema. -/
structure Textual (Known : Schema → Prop) (Read : Document → Prop) (ctx : Context) : Prop where
  known : Known ctx.schema
  documents : ∀ {id : DocumentId} {doc : Document}, ctx.document? id = some doc →
    doc.id = id ∧ ∃ read, Read read ∧ doc = ctx.schema.bind read
  names : ∃ history, ctx.names = Namespace.after history ∧ ∀ u ∈ history, ∀ s doc,
    u.content? = some (s, doc) → s = ctx.schema ∧ ∃ read, Read read ∧ doc = ctx.schema.bind read

section

variable {Known : Schema → Prop} {Read Read' : Document → Prop} {ctx : Context} {w : Workspace}

theorem Textual.mono (h : Textual Known Read ctx) (himp : ∀ doc, Read doc → Read' doc) :
    Textual Known Read' ctx := by
  refine ⟨h.known, fun hdoc => ?_, ?_⟩
  · obtain ⟨hid, read, hread, hbind⟩ := h.documents hdoc
    exact ⟨hid, read, himp read hread, hbind⟩
  · obtain ⟨history, hnames, hall⟩ := h.names
    refine ⟨history, hnames, fun u hu s doc hcontent => ?_⟩
    obtain ⟨hs, read, hread, hbind⟩ := hall u hu s doc hcontent
    exact ⟨hs, read, himp read hread, hbind⟩

theorem Textual.empty {s : Schema} (hs : Known s) :
    Textual Known Read (Workspace.empty s).context :=
  ⟨hs, nofun, [], rfl, nofun⟩

/-! ## Documents that come and go -/

theorem Textual.update (h : Textual Known Read ctx) (u : Update)
    {documents : OrderedMap DocumentId Document}
    (hdocuments : ∀ {id : DocumentId} {doc : Document}, documents.get? id = some doc →
      doc.id = id ∧ ∃ read, Read read ∧ doc = ctx.schema.bind read)
    (hcontent : ∀ s doc, u.content? = some (s, doc) →
      s = ctx.schema ∧ ∃ read, Read read ∧ doc = ctx.schema.bind read) :
    Textual Known Read { ctx with names := (u.edit ctx.names).names, documents := documents } := by
  obtain ⟨history, hnames, hall⟩ := h.names
  refine ⟨h.known, hdocuments, history ++ [u], ?_, fun v hv => ?_⟩
  · rw [after_append, ← hnames]
  · rcases List.mem_append.1 hv with hv | hv
    · exact hall v hv
    · rw [List.mem_singleton.1 hv]
      exact hcontent

theorem Textual.removeDocument (h : Textual Known Read w.context) (id : DocumentId) :
    Textual Known Read (w.removeDocument id).2.context := by
  unfold Workspace.removeDocument
  split
  · exact h
  · refine h.update (.remove id) (fun {other doc} hdoc => ?_) (by rintro s doc ⟨⟩)
    rw [OrderedMap.get?_erase] at hdoc
    split at hdoc
    · cases hdoc
    · exact h.documents hdoc

theorem Textual.assignPath (h : Textual Known Read w.context) (id : DocumentId) (path : String) :
    Textual Known Read (w.assignPath id path).context := by
  unfold Workspace.assignPath
  cases w.ids.get? path with
  | none => exact h
  | some previous =>
    dsimp only
    split
    · exact h
    · exact h.removeDocument previous

theorem Textual.setDocument (h : Textual Known Read w.context) {doc : Document} (hdoc : Read doc) :
    Textual Known Read (w.setDocument doc).context := by
  have hassigned := h.assignPath doc.id doc.path
  unfold Workspace.setDocument
  generalize w.assignPath doc.id doc.path = w₁ at hassigned
  refine hassigned.update (.sync w₁.context.schema (w₁.context.schema.bind doc))
    (fun {other found} hfound => ?_) ?_
  · rw [OrderedMap.get?_put] at hfound
    split at hfound
    · rename_i hid
      cases hfound
      exact ⟨hid.symm, doc, hdoc, rfl⟩
    · exact hassigned.documents hfound
  · rintro s found ⟨⟩
    exact ⟨rfl, doc, hdoc, rfl⟩

theorem Textual.setFile (h : Textual Known Read w.context) (path : String) (text : List Char)
    (hread : ∀ id doc, Document.ofText id path text = .ok doc → Read doc) :
    Textual Known Read (w.setFile path text).2.context := by
  have hallocated : Textual Known Read (w.allocate path).2.context := by
    rw [(context_allocate w path).1]
    exact h
  unfold Workspace.setFile
  generalize w.allocate path = allocated at hallocated
  dsimp only
  cases hdoc : Document.ofText allocated.1 path text with
  | error failure => exact hallocated
  | ok doc => exact hallocated.setDocument (hread _ doc hdoc)

/-! ## Another schema -/

theorem schema_foldl_rebind (ctx : Context) (ids : List DocumentId) :
    (ids.foldl rebind ctx).schema = ctx.schema := by
  induction ids generalizing ctx with
  | nil => rfl
  | cons id rest ih =>
    rw [List.foldl_cons, ih, rebind]
    split <;> rfl

/-- The documents that are bound anew are bound to the schema that the context has. -/
theorem document?_foldl_rebind (ctx : Context) (ids : List DocumentId) (j : DocumentId) :
    (ids.foldl rebind ctx).document? j =
      if j ∈ ids then (ctx.document? j).map ctx.schema.bind else ctx.document? j := by
  induction ids generalizing ctx with
  | nil => rfl
  | cons id rest ih =>
    rw [List.foldl_cons, ih, rebind]
    cases hdoc : ctx.document? id with
    | none =>
      by_cases hj : j = id
      · subst hj
        simp [hdoc]
      · simp [hj]
    | some doc =>
      have hput : ∀ j, Context.document? { ctx with
          names := (ctx.names.sync ctx.schema (ctx.schema.bind doc)).names
          documents := ctx.documents.put id (ctx.schema.bind doc) } j =
            if j = id then some (ctx.schema.bind doc) else ctx.document? j :=
        fun j => OrderedMap.get?_put _ _ _ _
      dsimp only
      rw [hput]
      by_cases hj : j = id
      · subst hj
        simp [hdoc, bind_bind]
      · simp [hj]

theorem Textual.setSchema (h : Textual Known Read w.context) {s : Schema} (hs : Known s) :
    Textual Known Read (w.setSchema s).context := by
  have hschema : (w.setSchema s).context.schema = s := schema_foldl_rebind _ _
  have hdocuments : ∀ {id : DocumentId} {doc : Document},
      w.context.document? id = some doc →
        (s.bind doc).id = id ∧ ∃ read, Read read ∧ s.bind doc = s.bind read := by
    intro id doc hdoc
    obtain ⟨hid, read, hread, rfl⟩ := h.documents hdoc
    exact ⟨hid, read, hread, bind_bind _ _ _⟩
  refine ⟨hschema.symm ▸ hs, fun {id doc} hdoc => ?_, ?_⟩
  · rw [hschema]
    unfold Workspace.setSchema at hdoc
    dsimp only at hdoc
    rw [document?_foldl_rebind] at hdoc
    split at hdoc
    · obtain ⟨old, hold, rfl⟩ := Option.map_eq_some_iff.1 hdoc
      exact hdocuments hold
    · rename_i hid
      have hkey : id ∈ w.context.documents.keys := (OrderedMap.mem_keys_iff _ _).2 ⟨doc, hdoc⟩
      exact absurd (List.mem_mergeSort.2 hkey) hid
  · rw [hschema]
    refine @exists_history_rebind { w.context with schema := s, names := .empty } _ _
      ⟨[], rfl, nofun⟩ fun hdoc => ?_
    rintro s' doc ⟨⟩
    exact ⟨rfl, (hdocuments hdoc).2⟩

/-! ## Sessions -/

theorem Textual.run {c : Command} (h : Textual Known Read w.context)
    (hschema : ∀ s, c = .setSchema s → Known s) (hdocument : ∀ doc, c = .setDocument doc → Read doc)
    (hread : ∀ path text, c = .setFile path text →
      ∀ id doc, Document.ofText id path text = .ok doc → Read doc) :
    Textual Known Read (w.run c).context := by
  cases c with
  | setDocument doc => exact h.setDocument (hdocument doc rfl)
  | setFile path text => exact h.setFile path text (hread path text rfl)
  | removeDocument id => exact h.removeDocument id
  | removeFile path =>
    simp only [Workspace.run, Workspace.removeFile]
    split
    · exact h.removeDocument _
    · exact h
  | setSchema s => exact h.setSchema (hschema s rfl)
  | allocate path =>
    rw [Workspace.run, (context_allocate w path).1]
    exact h
  | ask q =>
    rw [Workspace.run, context_ask]
    exact h

end

/-- All documents of a session that sets texts have been read from texts that it sets. -/
theorem textual_after {s : Schema} (hs : s.Loaded) {commands : List Command}
    (hc : ∀ c ∈ commands, c.FromTexts) :
    Textual Schema.Loaded (ReadIn commands) (after s commands).context := by
  induction commands using List.reverseRecOn with
  | nil => exact .empty hs
  | append_singleton commands c ih =>
    have hbefore : Textual Schema.Loaded (ReadIn (commands ++ [c])) (after s commands).context := by
      refine (ih fun c hc' => hc c (List.mem_append_left _ hc')).mono ?_
      rintro read ⟨text, hmem, hread⟩
      exact ⟨text, List.mem_append_left _ hmem, hread⟩
    rw [after, List.foldl_append]
    have hlast : c.FromTexts := hc c (by simp)
    refine hbefore.run ?_ ?_ ?_
    · rintro s rfl
      exact hlast
    · rintro doc rfl
      exact hlast.elim
    · rintro path text rfl id doc hread
      obtain ⟨rfl, rfl⟩ := Document.id_path_ofText hread
      exact ⟨text, by simp, hread⟩

/-- All documents of a session are of a kind when those are that it sets and those that can be read. -/
theorem textual_of_set {Read : Document → Prop} (s : Schema) {commands : List Command}
    (hset : ∀ doc, .setDocument doc ∈ commands → Read doc)
    (hread : ∀ id path text doc, Document.ofText id path text = .ok doc → Read doc) :
    Textual (fun _ => True) Read (after s commands).context := by
  induction commands using List.reverseRecOn with
  | nil => exact .empty trivial
  | append_singleton commands c ih =>
    rw [after, List.foldl_append]
    refine (ih fun doc hdoc => hset doc (List.mem_append_left _ hdoc)).run (fun _ _ => trivial) ?_ ?_
    · rintro doc rfl
      exact hset doc (by simp)
    · rintro path text - id doc hdoc
      exact hread id path text doc hdoc

/-- All documents of a session that sets no others have been read from texts. -/
theorem read_after (s : Schema) {commands : List Command} (hc : ∀ c ∈ commands, c.SetsRead) :
    Textual (fun _ => True) Document.IsRead (after s commands).context := by
  refine textual_of_set s (fun doc hdoc => hc _ hdoc) fun id path text doc hread => ?_
  obtain ⟨rfl, rfl⟩ := Document.id_path_ofText hread
  exact ⟨text, hread⟩

end Workspace
end UILayout
