import UILayout.Check.Document
import UILayout.Markup.Reader
import UILayout.Namespace.Sync
import UILayout.Outline.Definition
import UILayout.Schema.Bind

/-!
# UILayout.Workspace.State

A workspace: documents under paths, with the namespace and the hierarchy that follow from them.
Setting or removing a document updates the namespace at once and drops the nodes of the hierarchy
that were made from what has changed, so every question sees the documents as they are.
-/

namespace UILayout

open Schema Markup

structure Workspace where
  context : Context
  hierarchy : Hierarchy
  /-- The document of each path that is known. -/
  ids : NameMap DocumentId
  paths : OrderedMap DocumentId String
  /-- No document has this number or a larger one. -/
  nextId : Nat

namespace Workspace

def empty (s : Schema) : Workspace := ⟨⟨s, .empty, .empty⟩, .empty, .empty, .empty, 0⟩

/-- Takes over an edit of the namespace. -/
def accept (w : Workspace) (e : Namespace.Edit) : Workspace :=
  { w with
    context := { w.context with names := e.names }
    hierarchy := w.hierarchy.invalidate e.changes }

/-! ## Changes -/

/-- The number of a path, a new one if the path is not known. -/
def allocate (w : Workspace) (path : String) : DocumentId × Workspace :=
  match w.ids.get? path with
  | some id => (id, w)
  | none =>
    (w.nextId,
      { w with
        ids := w.ids.put path w.nextId
        paths := w.paths.put w.nextId path
        nextId := w.nextId + 1 })

/-- Removes a document with all that it declares. -/
def removeDocument (w : Workspace) (id : DocumentId) : Bool × Workspace :=
  if (w.context.document? id).isNone then (false, w)
  else
    let ctx := { w.context with documents := w.context.documents.erase id }
    let w := ({ w with context := ctx }).accept (ctx.names.remove id)
    let ids :=
      match w.paths.get? id with
      | some path => w.ids.erase path
      | none => w.ids
    (true, { w with ids := ids, paths := w.paths.erase id })

def removeFile (w : Workspace) (path : String) : Bool × Workspace :=
  match w.ids.get? path with
  | some id => w.removeDocument id
  | none => (false, w)

/-- Gives a path to a document that has another number than the path had before, or had another path
before; what stood under the path is removed. -/
def assignPath (w : Workspace) (id : DocumentId) (path : String) : Workspace :=
  let w :=
    match w.ids.get? path with
    | some previous => if previous = id then w else (w.removeDocument previous).2
    | none => w
  let ids :=
    match w.paths.get? id with
    | some old => if old = path then w.ids else w.ids.erase old
    | none => w.ids
  { w with ids := ids.put path id, paths := w.paths.put id path, nextId := max w.nextId (id + 1) }

/-- Sets a document, which replaces the one of its number and the one of its path. -/
def setDocument (w : Workspace) (doc : Document) : Workspace :=
  let w := w.assignPath doc.id doc.path
  let doc := w.context.schema.bind doc
  let w := w.accept (w.context.names.sync w.context.schema doc)
  { w with context := { w.context with documents := w.context.documents.put doc.id doc } }

/-- Sets the text of a path. A text that cannot be read leaves the document as it was. -/
def setFile (w : Workspace) (path : String) (text : List Char) :
    Except Failure DocumentId × Workspace :=
  let allocated := w.allocate path
  match Document.ofText allocated.1 path text with
  | .error failure => (.error failure, allocated.2)
  | .ok doc => (.ok allocated.1, allocated.2.setDocument doc)

/-- Puts one document into a namespace, after binding it. -/
def rebind (ctx : Context) (id : DocumentId) : Context :=
  match ctx.document? id with
  | none => ctx
  | some doc =>
    let doc := ctx.schema.bind doc
    { ctx with
      names := (ctx.names.sync ctx.schema doc).names
      documents := ctx.documents.put id doc }

/-- Replaces the schema. All documents are bound anew and enter a new namespace, in the order of their
numbers. -/
def setSchema (w : Workspace) (s : Schema) : Workspace :=
  let ids := w.context.documents.keys.mergeSort
  let ctx := ids.foldl rebind { w.context with schema := s, names := .empty }
  { w with context := ctx, hierarchy := .empty }

/-! ## Questions -/

def documentId? (w : Workspace) (path : String) : Option DocumentId := w.ids.get? path

def path? (w : Workspace) (id : DocumentId) : Option String := w.paths.get? id

def hasFile (w : Workspace) (path : String) : Bool :=
  (w.ids.get? path).any fun id => (w.context.document? id).isSome

def documentCount (w : Workspace) : Nat := w.context.documents.entries.length

/-- Takes over the hierarchy that a question has left. -/
def keep {α : Type} (w : Workspace) (answer : α × Hierarchy) : α × Workspace :=
  (answer.1, { w with hierarchy := answer.2 })

/-- The reports on a document; none on one that is not there. -/
def check (w : Workspace) (id : DocumentId) : List Check.Report × Workspace :=
  match w.context.document? id with
  | none => ([], w)
  | some doc => w.keep (Check.document w.context w.hierarchy doc)

/-- The descs that a path stands for, seen from a desc. -/
def resolve (w : Workspace) (id : DescId) (path : List Char) :
    Hierarchy.Resolution × Workspace :=
  w.keep (w.hierarchy.resolve w.context id (.ofText path))

def descAt? (w : Workspace) (id : DocumentId) (offset : Nat) : Option DescId :=
  (w.context.document? id).bind fun doc =>
    (doc.elementAt? offset).bind fun e => w.context.names.scope? (doc.ref e)

def definitionAt (w : Workspace) (id : DocumentId) (offset : Nat) :
    List Outline.Target × Workspace :=
  match w.context.document? id with
  | none => ([], w)
  | some doc => w.keep (Outline.definitionAt w.context w.hierarchy doc offset)

def documentSymbols (w : Workspace) (id : DocumentId) : List Outline.Symbol :=
  ((w.context.document? id).map (Outline.documentSymbols w.context)).getD []

def workspaceSymbols (w : Workspace) (query? : Option String) : List Outline.Symbol :=
  Outline.workspaceSymbols w.context query?

end Workspace

end UILayout
