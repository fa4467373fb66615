import UILayout.Proofs.Hierarchy.Agree
import UILayout.Proofs.Hierarchy.Invalidate
import UILayout.Proofs.Hierarchy.Move
import UILayout.Proofs.Hierarchy.Questions
import UILayout.Proofs.Namespace.Trace
import UILayout.Proofs.Schema.Bound
import UILayout.Workspace.State

/-!
# UILayout.Proofs.Workspace.Session

A session with a workspace: documents come, change and go, the schema is replaced, and questions are
asked in between, all in any order. At every point the hierarchy is coherent with the namespace and
the documents of that moment.

* `Valid.update`: an update of the namespace drops enough of the hierarchy.
* `valid_after`: what holds after every session.
-/

namespace UILayout

open Schema Markup Namespace

namespace Workspace

/-- What may be asked, as far as the hierarchy has part in the answer. -/
inductive Question where
  | check (id : DocumentId)
  | definitionAt (id : DocumentId) (offset : Nat)
  | resolve (id : DescId) (path : List Char)
  | walk (moves : List Hierarchy.Move)

inductive Answer where
  | reports (found : List Check.Report)
  | targets (found : List Outline.Target)
  | resolution (found : Hierarchy.Resolution)
  | nodes (found : List (List NodeId))

def ask (w : Workspace) : Question → Answer × Workspace
  | .check id => (.reports (w.check id).1, (w.check id).2)
  | .definitionAt id offset => (.targets (w.definitionAt id offset).1, (w.definitionAt id offset).2)
  | .resolve id path => (.resolution (w.resolve id path).1, (w.resolve id path).2)
  | .walk moves =>
    let found := w.keep (w.hierarchy.walk w.context [] moves)
    (.nodes found.1, found.2)

inductive Command where
  | setDocument (doc : Document)
  | setFile (path : String) (text : List Char)
  | removeDocument (id : DocumentId)
  | removeFile (path : String)
  | setSchema (s : Schema)
  | allocate (path : String)
  | ask (q : Question)

def run (w : Workspace) : Command → Workspace
  | .setDocument doc => w.setDocument doc
  | .setFile path text => (w.setFile path text).2
  | .removeDocument id => (w.removeDocument id).2
  | .removeFile path => (w.removeFile path).2
  | .setSchema s => w.setSchema s
  | .allocate path => (w.allocate path).2
  | .ask q => (w.ask q).2

/-- The workspace after some commands, the first of which finds it empty. -/
def after (s : Schema) (commands : List Command) : Workspace := commands.foldl run (.empty s)

/-! ## What holds at every point -/

/-- The namespace has come about by updates, and the hierarchy is coherent with it. -/
structure Valid (ctx : Context) (h : Hierarchy) : Prop where
  names : ∃ history, ctx.names = Namespace.after history
  coherent : Hierarchy.Coherent ctx h

section

variable {ctx : Context} {h : Hierarchy} {w : Workspace}

/-- All that an update does to the descs and to the documents that declare them is on record. -/
theorem agree_update {n : Namespace} (hn : Settled n) (u : Update) (hctx : ctx.names = n)
    {documents : OrderedMap DocumentId Document}
    (hdocs : ∀ id, id ≠ u.document → documents.get? id = ctx.documents.get? id) :
    Hierarchy.Agree ctx { ctx with names := (u.edit n).names, documents := documents }
      (u.edit n).changes := by
  have htrace := trace_edit hn u
  have desc : ∀ {id : DescId}, (u.edit n).changes.touches id = false →
      (u.edit n).names.descs[id]? = ctx.names.descs[id]? := by
    intro id ht
    rw [hctx]
    cases hd : n.descs[id]? with
    | some d => exact htrace.untouched hd ht
    | none =>
      by_contra hne
      have hmem := htrace.created id hd (Option.ne_none_iff_exists'.1 hne)
      exact ((Changes.touches_eq_false_iff _ _).1 ht).2.1 hmem
  refine ⟨rfl, desc, ?_⟩
  intro id d site ht hd hs
  have hd' : (u.edit n).names.descs[id]? = some d := (desc ht).trans hd
  exact hdocs _ (htrace.away hd' ht hs)

theorem Valid.settled (hv : Valid ctx h) : Settled ctx.names := by
  obtain ⟨history, hnames⟩ := hv.names
  exact hnames ▸ settled_after history

theorem Valid.update (hv : Valid ctx h) (u : Update) {documents : OrderedMap DocumentId Document}
    (hdocs : ∀ id, id ≠ u.document → documents.get? id = ctx.documents.get? id) :
    Valid { ctx with names := (u.edit ctx.names).names, documents := documents }
      (h.invalidate (u.edit ctx.names).changes) := by
  obtain ⟨history, hnames⟩ := hv.names
  obtain ⟨hcoherent, hfresh⟩ := hv.coherent.invalidate (u.edit ctx.names).changes
  refine ⟨⟨history ++ [u], ?_⟩, hcoherent.transfer (agree_update hv.settled u rfl hdocs) hfresh⟩
  rw [after_append, ← hnames]

theorem Valid.removeDocument (hv : Valid w.context w.hierarchy) (id : DocumentId) :
    Valid (w.removeDocument id).2.context (w.removeDocument id).2.hierarchy := by
  unfold Workspace.removeDocument
  split
  · exact hv
  · refine hv.update (.remove id) fun other hne => ?_
    exact (OrderedMap.get?_erase _ _ _).trans (if_neg hne)

theorem Valid.assignPath (hv : Valid w.context w.hierarchy) (id : DocumentId) (path : String) :
    Valid (w.assignPath id path).context (w.assignPath id path).hierarchy := by
  unfold Workspace.assignPath
  cases w.ids.get? path with
  | none => exact hv
  | some previous =>
    dsimp only
    split
    · exact hv
    · exact hv.removeDocument previous

theorem Valid.setDocument (hv : Valid w.context w.hierarchy) (doc : Document) :
    Valid (w.setDocument doc).context (w.setDocument doc).hierarchy := by
  have hassigned := hv.assignPath doc.id doc.path
  unfold Workspace.setDocument
  generalize w.assignPath doc.id doc.path = w₁ at hassigned
  refine hassigned.update (.sync w₁.context.schema (w₁.context.schema.bind doc)) fun other hne => ?_
  exact (OrderedMap.get?_put _ _ _ _).trans (if_neg hne)

theorem context_allocate (w : Workspace) (path : String) :
    (w.allocate path).2.context = w.context ∧ (w.allocate path).2.hierarchy = w.hierarchy := by
  unfold allocate
  split <;> exact ⟨rfl, rfl⟩

theorem Valid.allocate (hv : Valid w.context w.hierarchy) (path : String) :
    Valid (w.allocate path).2.context (w.allocate path).2.hierarchy := by
  rw [(context_allocate w path).1, (context_allocate w path).2]
  exact hv

theorem Valid.setFile (hv : Valid w.context w.hierarchy) (path : String) (text : List Char) :
    Valid (w.setFile path text).2.context (w.setFile path text).2.hierarchy := by
  have hallocated := hv.allocate path
  unfold Workspace.setFile
  generalize w.allocate path = allocated at hallocated
  dsimp only
  cases Document.ofText allocated.1 path text with
  | error failure => exact hallocated
  | ok doc => exact hallocated.setDocument doc

/-- Binding documents anew puts them into the namespace as the schema binds them. -/
theorem exists_history_rebind {P : Update → Prop} (ids : List DocumentId)
    (hn : ∃ history, ctx.names = Namespace.after history ∧ ∀ u ∈ history, P u)
    (hP : ∀ {id : DocumentId} {doc : Document}, ctx.document? id = some doc →
      P (.sync ctx.schema (ctx.schema.bind doc))) :
    ∃ history, (ids.foldl rebind ctx).names = Namespace.after history ∧ ∀ u ∈ history, P u := by
  induction ids generalizing ctx with
  | nil => exact hn
  | cons id rest ih =>
    obtain ⟨history, hnames, hall⟩ := hn
    rw [List.foldl_cons, rebind]
    cases hdoc : ctx.document? id with
    | none => exact ih ⟨history, hnames, hall⟩ hP
    | some doc =>
      refine ih ⟨history ++ [.sync ctx.schema (ctx.schema.bind doc)], ?_, ?_⟩ ?_
      · rw [after_append, ← hnames]
        rfl
      · intro u hu
        rcases List.mem_append.1 hu with hu | hu
        · exact hall u hu
        · rw [List.mem_singleton.1 hu]
          exact hP hdoc
      · intro other found hfound
        rw [Context.document?, OrderedMap.get?_put] at hfound
        split at hfound
        · cases hfound
          rw [bind_bind]
          exact hP hdoc
        · exact hP hfound

theorem Valid.setSchema (w : Workspace) (s : Schema) :
    Valid (w.setSchema s).context (w.setSchema s).hierarchy := by
  obtain ⟨history, hnames, -⟩ := @exists_history_rebind
    { w.context with schema := s, names := .empty } (fun _ => True) _ ⟨[], rfl, nofun⟩
    fun _ => trivial
  exact ⟨⟨history, hnames⟩, .empty _⟩

/-! ## The schema stays -/

theorem schema_removeDocument (w : Workspace) (id : DocumentId) :
    (w.removeDocument id).2.context.schema = w.context.schema := by
  unfold Workspace.removeDocument
  split <;> rfl

theorem schema_assignPath (w : Workspace) (id : DocumentId) (path : String) :
    (w.assignPath id path).context.schema = w.context.schema := by
  unfold Workspace.assignPath
  cases w.ids.get? path with
  | none => rfl
  | some previous =>
    dsimp only
    split
    · rfl
    · exact schema_removeDocument w previous

theorem schema_setDocument (w : Workspace) (doc : Document) :
    (w.setDocument doc).context.schema = w.context.schema :=
  schema_assignPath w doc.id doc.path

theorem schema_setFile (w : Workspace) (path : String) (text : List Char) :
    (w.setFile path text).2.context.schema = w.context.schema := by
  have hallocated : (w.allocate path).2.context.schema = w.context.schema := by
    rw [(context_allocate w path).1]
  unfold Workspace.setFile
  generalize w.allocate path = allocated at hallocated ⊢
  dsimp only
  cases Document.ofText allocated.1 path text with
  | error failure => exact hallocated
  | ok doc => exact (schema_setDocument allocated.2 doc).trans hallocated

/-! ## Questions -/

theorem steady_check (w : Workspace) (id : DocumentId) :
    Hierarchy.Steady w.context fun h =>
      let found := ({ w with hierarchy := h } : Workspace).check id
      (found.1, found.2.hierarchy) := by
  unfold Workspace.check
  dsimp only
  cases w.context.document? id with
  | none => exact .const _ _
  | some doc => exact Check.steady_document w.context doc

theorem steady_definitionAt (w : Workspace) (id : DocumentId) (offset : Nat) :
    Hierarchy.Steady w.context fun h =>
      let found := ({ w with hierarchy := h } : Workspace).definitionAt id offset
      (found.1, found.2.hierarchy) := by
  unfold Workspace.definitionAt
  dsimp only
  cases w.context.document? id with
  | none => exact .const _ _
  | some doc => exact Outline.steady_definitionAt w.context doc offset

/-- No question changes the context. -/
theorem context_ask (w : Workspace) (q : Question) : (w.ask q).2.context = w.context := by
  cases q with
  | check id =>
    simp only [ask, Workspace.check]
    split <;> rfl
  | definitionAt id offset =>
    simp only [ask, Workspace.definitionAt]
    split <;> rfl
  | resolve id path => rfl
  | walk moves => rfl

theorem coherent_ask (hc : Hierarchy.Coherent w.context w.hierarchy) (q : Question) :
    Hierarchy.Coherent w.context (w.ask q).2.hierarchy := by
  cases q with
  | check id => exact (steady_check w id).coherent hc
  | definitionAt id offset => exact (steady_definitionAt w id offset).coherent hc
  | resolve id path => exact (Hierarchy.steady_resolve w.context id (.ofText path)).coherent hc
  | walk moves => exact (hc.walk .nil moves).coherent

theorem Valid.ask (hv : Valid w.context w.hierarchy) (q : Question) :
    Valid (w.ask q).2.context (w.ask q).2.hierarchy := by
  rw [context_ask]
  exact ⟨hv.names, coherent_ask hv.coherent q⟩

theorem Valid.run (hv : Valid w.context w.hierarchy) (c : Command) :
    Valid (w.run c).context (w.run c).hierarchy := by
  cases c with
  | setDocument doc => exact hv.setDocument doc
  | setFile path text => exact hv.setFile path text
  | removeDocument id => exact hv.removeDocument id
  | removeFile path =>
    simp only [Workspace.run, Workspace.removeFile]
    split
    · exact hv.removeDocument _
    · exact hv
  | setSchema s => exact .setSchema w s
  | allocate path => exact hv.allocate path
  | ask q => exact hv.ask q

end

theorem valid_after (s : Schema) (commands : List Command) :
    Valid (after s commands).context (after s commands).hierarchy := by
  induction commands using List.reverseRecOn with
  | nil => exact ⟨⟨[], rfl⟩, .empty _⟩
  | append_singleton commands c ih =>
    rw [after, List.foldl_append]
    exact ih.run c

end Workspace
end UILayout
