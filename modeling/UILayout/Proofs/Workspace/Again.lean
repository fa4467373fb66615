import UILayout.Proofs.Except
import UILayout.Proofs.Namespace.Behind
import UILayout.Proofs.Workspace.Paths
import UILayout.Proofs.Workspace.Texts

/-!
# UILayout.Proofs.Workspace.Again

Setting the text of a file again, unchanged. The namespace is at every point in step with the documents
that the workspace has, so the file moves behind all others and nothing else happens. A lookup that the
file has decided so far is then decided by another file, if there is one that could.

* `stepped_after`: the documents of a workspace are those that its namespace has been brought up to.
* `lookupsKept_setFile_iff`: when setting a text again leaves all lookups as they were.
* `constant_lost_again`: a constant that another file has as well.
-/

namespace UILayout
namespace Workspace

open Schema Markup Namespace

/-- A namespace has been brought up to date with these documents, and with no others. -/
def InStep (s : Schema) (n : Namespace) (documents : DocumentId → Option Document) : Prop :=
  ∃ history, n = Namespace.after history ∧ ∀ id, current history id = (documents id).map (s, ·)

namespace InStep

variable {s : Schema} {n : Namespace} {documents : DocumentId → Option Document}

theorem id_eq (h : InStep s n documents) {id : DocumentId} {doc : Document}
    (hdoc : documents id = some doc) : doc.id = id := by
  obtain ⟨history, -, hcurrent⟩ := h
  have hin : current history id = some (s, doc) := by rw [hcurrent, hdoc, Option.map_some]
  exact id_of_current hin

/-- A document that is there is what the namespace was brought up to last. -/
theorem exists_history (h : InStep s n documents) {id : DocumentId} {doc : Document}
    (hdoc : documents id = some doc) :
    ∃ history, n = Namespace.after history ∧ current history doc.id = some (s, doc) := by
  have hid := h.id_eq hdoc
  obtain ⟨history, hnames, hcurrent⟩ := h
  refine ⟨history, hnames, ?_⟩
  rw [hid, hcurrent, hdoc, Option.map_some]

theorem edit (h : InStep s n documents) (u : Update) {found? : Option Document}
    (hcontent : u.content? = found?.map (s, ·)) :
    InStep s (u.edit n).names (Function.update documents u.document found?) := by
  obtain ⟨history, rfl, hcurrent⟩ := h
  refine ⟨history ++ [u], (after_append _ _).symm, fun id => ?_⟩
  rw [current_append, Function.update_apply, Function.update_apply]
  split
  · exact hcontent
  · exact hcurrent id

theorem sync (h : InStep s n documents) (doc : Document) :
    InStep s (n.sync s doc).names (Function.update documents doc.id (some doc)) :=
  h.edit (.sync s doc) rfl

theorem remove (h : InStep s n documents) (id : DocumentId) :
    InStep s (n.remove id).names (Function.update documents id none) :=
  h.edit (.remove id) rfl

theorem congr {documents' : DocumentId → Option Document} (h : InStep s n documents)
    (heq : ∀ id, documents' id = documents id) : InStep s n documents' := by
  rwa [funext heq]

/-- Documents enter a new namespace one by one; those that have not are still to come. -/
theorem foldl_rebind (ctx : Context) (ids : List DocumentId)
    (h : InStep ctx.schema ctx.names documents)
    (hid : ∀ {id : DocumentId} {doc : Document}, ctx.document? id = some doc → doc.id = id)
    (hrest : ∀ id, documents id = ctx.document? id ∨ documents id = none ∧ id ∈ ids) :
    InStep ctx.schema (ids.foldl rebind ctx).names (ids.foldl rebind ctx).document? := by
  induction ids generalizing ctx documents with
  | nil => exact h.congr fun id => ((hrest id).resolve_right fun hin => nomatch hin.2).symm
  | cons id rest ih =>
    rw [List.foldl_cons, rebind]
    cases hdoc : ctx.document? id with
    | none =>
      refine ih ctx h hid fun other => ?_
      rcases hrest other with heq | ⟨hnone, hin⟩
      · exact .inl heq
      · rcases List.mem_cons.1 hin with rfl | hin
        · exact .inl (hnone.trans hdoc.symm)
        · exact .inr ⟨hnone, hin⟩
    | some doc =>
      have hput : ∀ other, Context.document? { ctx with
          names := (ctx.names.sync ctx.schema (ctx.schema.bind doc)).names
          documents := ctx.documents.put id (ctx.schema.bind doc) } other =
            if other = id then some (ctx.schema.bind doc) else ctx.document? other :=
        fun other => OrderedMap.get?_put _ _ _ _
      have hbound : (ctx.schema.bind doc).id = id := @hid id doc hdoc
      refine ih _ (h.sync (ctx.schema.bind doc)) (fun {other found} hfound => ?_) fun other => ?_
      · rw [hput] at hfound
        split at hfound
        · rename_i hother
          cases hfound
          rw [hbound, hother]
        · exact hid hfound
      · rw [hput, hbound, Function.update_apply]
        split
        · exact .inl rfl
        · rename_i hne
          exact (hrest other).imp_right fun hin => ⟨hin.1, (List.mem_cons.1 hin.2).resolve_left hne⟩

end InStep

section

variable {w : Workspace}

/-- The namespace of a workspace is in step with its documents. -/
abbrev Stepped (w : Workspace) : Prop := InStep w.context.schema w.context.names w.context.document?

theorem Stepped.removeDocument (h : Stepped w) (id : DocumentId) : Stepped (w.removeDocument id).2 := by
  unfold Workspace.removeDocument
  split
  · exact h
  · refine (InStep.remove h id).congr fun other => ?_
    rw [Function.update_apply]
    exact OrderedMap.get?_erase _ _ _

theorem Stepped.assignPath (h : Stepped w) (id : DocumentId) (path : String) :
    Stepped (w.assignPath id path) := by
  unfold Workspace.assignPath
  cases w.ids.get? path with
  | none => exact h
  | some previous =>
    dsimp only
    split
    · exact h
    · exact h.removeDocument previous

theorem Stepped.setDocument (h : Stepped w) (doc : Document) : Stepped (w.setDocument doc) := by
  have hassigned := h.assignPath doc.id doc.path
  unfold Workspace.setDocument
  generalize w.assignPath doc.id doc.path = w₁ at hassigned
  refine (InStep.sync hassigned (w₁.context.schema.bind doc)).congr fun other => ?_
  rw [Function.update_apply]
  exact OrderedMap.get?_put _ _ _ _

theorem Stepped.allocate (h : Stepped w) (path : String) : Stepped (w.allocate path).2 := by
  unfold Stepped
  rw [(context_allocate w path).1]
  exact h

theorem Stepped.setFile (h : Stepped w) (path : String) (text : List Char) :
    Stepped (w.setFile path text).2 := by
  have hallocated := h.allocate path
  unfold Workspace.setFile
  generalize w.allocate path = allocated at hallocated
  dsimp only
  cases Document.ofText allocated.1 path text with
  | error failure => exact hallocated
  | ok doc => exact hallocated.setDocument doc

theorem Stepped.setSchema (h : Stepped w) (s : Schema) : Stepped (w.setSchema s) := by
  have hempty : InStep s Namespace.empty fun _ => none := ⟨[], rfl, fun _ => rfl⟩
  have hfold := hempty.foldl_rebind { w.context with schema := s, names := .empty }
    w.context.documents.keys.mergeSort h.id_eq fun id => ?_
  · unfold Stepped Workspace.setSchema
    dsimp only
    rw [schema_foldl_rebind]
    exact hfold
  · cases hdoc : w.context.document? id with
    | none => exact .inl hdoc.symm
    | some doc =>
      have hkey : id ∈ w.context.documents.keys := (OrderedMap.mem_keys_iff _ _).2 ⟨doc, hdoc⟩
      exact .inr ⟨rfl, List.mem_mergeSort.2 hkey⟩

theorem Stepped.run (h : Stepped w) (c : Command) : Stepped (w.run c) := by
  cases c with
  | setDocument doc => exact h.setDocument doc
  | setFile path text => exact h.setFile path text
  | removeDocument id => exact h.removeDocument id
  | removeFile path =>
    simp only [Workspace.run, Workspace.removeFile]
    split
    · exact h.removeDocument _
    · exact h
  | setSchema s => exact h.setSchema s
  | allocate path => exact h.allocate path
  | ask q =>
    unfold Stepped
    rw [Workspace.run, context_ask]
    exact h

end

theorem stepped_after (s : Schema) (commands : List Command) : Stepped (after s commands) := by
  induction commands using List.reverseRecOn with
  | nil => exact ⟨[], rfl, fun _ => rfl⟩
  | append_singleton commands c ih =>
    rw [after, List.foldl_append]
    exact ih.run c

/-- A document of a workspace has entered its namespace as it is. -/
theorem mirrors_after (s : Schema) (commands : List Command) {id : DocumentId} {doc : Document}
    (hdoc : (after s commands).context.document? id = some doc) :
    Mirrors (after s commands).context.names (after s commands).context.schema doc := by
  obtain ⟨history, hnames, hin⟩ := (stepped_after s commands).exists_history hdoc
  rw [hnames]
  exact mirrors_of_current hin

/-! ## The same text once more -/

/-- The document that a path has is the one that is read from a text. -/
structure HasText (w : Workspace) (path : String) (text : List Char) (id : DocumentId)
    (read : Document) : Prop where
  registered : w.documentId? path = some id
  reads : Document.ofText id path text = .ok read
  loaded : w.context.document? id = some (w.context.schema.bind read)

/-- Setting a text that can be read brings the namespace up to date with it, and does nothing else to
the context. -/
theorem context_setFile (w : Workspace) {path : String} {text : List Char} {read : Document}
    (hread : Document.ofText (w.allocate path).1 path text = .ok read) :
    (w.setFile path text).2.context = { w.context with
      names := (w.context.names.sync w.context.schema (w.context.schema.bind read)).names
      documents := w.context.documents.put (w.allocate path).1 (w.context.schema.bind read) } := by
  obtain ⟨hid, hpath⟩ := Document.id_path_ofText hread
  have hids := ids_allocate w path
  have hcontext := (context_allocate w path).1
  have hassign : ((w.allocate path).2.assignPath read.id read.path).context = w.context := by
    rw [assignPath, hpath, hids, hid]
    simpa using hcontext
  unfold Workspace.setFile
  dsimp only
  rw [hread]
  dsimp only
  unfold Workspace.setDocument Workspace.accept
  dsimp only
  rw [hassign, show (w.context.schema.bind read).id = (w.allocate path).1 from hid]

theorem HasText.allocate {w : Workspace} {path : String} {text : List Char} {id : DocumentId}
    {read : Document} (h : HasText w path text id read) : w.allocate path = (id, w) := by
  have hid : w.ids.get? path = some id := h.registered
  rw [Workspace.allocate, hid]

/-- Setting the text that a path has leaves all lookups as they were just when its document comes first
only where it is alone. -/
theorem lookupsKept_setFile_iff (s : Schema) (commands : List Command) {path : String}
    {text : List Char} {id : DocumentId} {read : Document}
    (h : HasText (after s commands) path text id read) :
    LookupsKept (after s commands).context.names
        ((after s commands).setFile path text).2.context.names ↔
      FirstAlone (after s commands).context.names id := by
  obtain ⟨history, hnames, hcurrent⟩ := stepped_after s commands
  generalize after s commands = w at h hnames hcurrent ⊢
  have hread : Document.ofText (w.allocate path).1 path text = .ok read := by
    rw [h.allocate]
    exact h.reads
  have hid : (w.context.schema.bind read).id = id := (Document.id_path_ofText h.reads).1
  have hin : current history (w.context.schema.bind read).id =
      some (w.context.schema, w.context.schema.bind read) := by
    rw [hid, hcurrent, h.loaded, Option.map_some]
  have hn := settled_after history
  rw [context_setFile w hread, hnames]
  dsimp only
  rw [(movedBehind_sync hin).lookupsKept_iff hn (hn.update (.sync _ _)).2, hid]

/-! ## Two files with one constant -/

/-- A schema of a root and constants in it. -/
def constantsOnly : Schema where
  simpleTypes := #[]
  complexTypes := #[{
    name := "Desc"
    attributes := .empty
    wildcards := []
    slots := ⟨[("Constant", 1)]⟩
    flags := ⟨false, false, true⟩
    bases := .empty
    inheritedAttributes := .empty
    inheritedSlots := .empty
    ownAttributes := .empty
    ownSlots := .empty
    label? := none
    documentation? := none }]
  slots := #[⟨"Desc", .desc, 0, .empty, none, none⟩, ⟨"Constant", .constant, 0, .empty, none, none⟩]
  classes := #[]
  properties := #[]
  frameTypes := #[]
  root := 0

/-- A file with a constant `X`. -/
def constantText (value : String) : List Char :=
  ("<Desc><Constant name=\"X\" val=\"" ++ value ++ "\"/></Desc>").toList

/-- Two files with a constant `X`, the first of which decides it. -/
def twoConstants : Workspace :=
  after constantsOnly [.setFile "A" (constantText "1"), .setFile "B" (constantText "2")]

theorem hasText_twoConstants : ∃ read, HasText twoConstants "A" (constantText "1") 0 read := by
  have hsome : (Document.ofText 0 "A" (constantText "1")).toOption.isSome = true := by decide +kernel
  have hsome' : (Document.ofText 1 "B" (constantText "2")).toOption.isSome = true := by decide +kernel
  have hnext : ((after constantsOnly [.setFile "A" (constantText "1")]).allocate "B").1 = 1 := by
    decide +kernel
  obtain ⟨read, hread⟩ := Option.isSome_iff_exists.1 hsome
  obtain ⟨read', hread'⟩ := Option.isSome_iff_exists.1 hsome'
  have hfirst : (after constantsOnly [.setFile "A" (constantText "1")]).context = _ :=
    context_setFile (.empty constantsOnly) (ok_of_toOption hread)
  have hsecond : twoConstants.context = _ :=
    context_setFile (after constantsOnly [.setFile "A" (constantText "1")])
      (hnext ▸ ok_of_toOption hread')
  refine ⟨read, by decide +kernel, ok_of_toOption hread, ?_⟩
  -- the second file has another number, so the first document is still there
  rw [hsecond, Context.document?, hnext, OrderedMap.get?_put, if_neg (by decide), hfirst]
  exact (OrderedMap.get?_put _ _ _ _).trans (if_pos rfl)

/-- Setting the first file again keeps all lookups just when the other one has none of what it decides. -/
theorem lookupsKept_setFile_twoConstants :
    (∃ read, HasText twoConstants "A" (constantText "1") 0 read) ∧
      (LookupsKept twoConstants.context.names
          (twoConstants.setFile "A" (constantText "1")).2.context.names ↔
        FirstAlone twoConstants.context.names 0) := by
  obtain ⟨read, h⟩ := hasText_twoConstants
  exact ⟨⟨read, h⟩, lookupsKept_setFile_iff constantsOnly _ h⟩

/-- When the first file is set again, as it is, the constant has the value of the second one. -/
theorem constant_lost_again :
    ∃ read, HasText twoConstants "A" (constantText "1") 0 read ∧
      ¬ LookupsKept twoConstants.context.names
        (twoConstants.setFile "A" (constantText "1")).2.context.names := by
  obtain ⟨read, hread⟩ := hasText_twoConstants
  refine ⟨read, hread, fun hkept => ?_⟩
  have hbefore : (twoConstants.context.names.constant? "X").map (·.value) = some "1" := by
    decide +kernel
  have hafter : ((twoConstants.setFile "A" (constantText "1")).2.context.names.constant? "X").map
      (·.value) = some "2" := by
    decide +kernel
  rw [hkept.constants, hbefore] at hafter
  exact absurd hafter (by decide)

end Workspace
end UILayout
