import UILayout.Proofs.Check.Conformance
import UILayout.Proofs.Namespace.Scopes
import UILayout.Proofs.Workspace.Again

/-!
# UILayout.Proofs.Workspace.Scopes

The desc that stands around an offset in a document of a session. At an element that the schema knows, it
is the desc that the element declares, or else the one that the nearest element around it declares, which
may be the file. At an element that the schema does not know, there is none.

* `descAt?_eq`: the desc at every offset where there is an element.
* `descAt?_unbound`: an element without a desc around it, inside a file.
-/

namespace UILayout
namespace Workspace

open Schema Markup Namespace

/-- In a document that is bound to a schema, the parents of bound elements are bound. -/
theorem boundAbove_bind {doc : Document} (h : doc.Tree) (s : Schema) : (s.bind doc).BoundAbove := by
  intro id p hparent hid
  by_contra hp
  obtain ⟨f, hf, -⟩ := ((h.bind s).child_iff p id).2 hparent
  obtain ⟨e, b, he, hb⟩ := Document.isBound_iff.1 hid
  have habove : Check.isUnbound (s.bind doc) p = true := by
    simpa [Document.isBound, Check.isUnbound, hf] using hp
  have hunbound := Check.unboundBelow_bind h s p id (((h.bind s).child_iff p id).2 hparent) habove
  simp [Check.isUnbound, he, hb] at hunbound

/-- In a document whose root is bound, the root declares the file, so there is a desc around every element.
The desc at an offset is that one just when the element is bound, and otherwise there is none. -/
theorem descAt?_eq (s : Schema) {commands : List Command}
    (hset : ∀ doc, .setDocument doc ∈ commands → doc.Built) {id : DocumentId} {doc : Document}
    (hdoc : (after s commands).context.document? id = some doc) {root : ElementId}
    (hroot : doc.root? = some root) (hbound : doc.isBound root = true) {offset : Nat}
    {element : ElementId} (helement : doc.elementAt? offset = some element) :
    let w := after s commands
    let n := w.context.names
    (∃ file, n.declared? (doc.ref root) = some file ∧ n.path? file = some [doc.name]) ∧
      ∃ desc, n.enclosing? doc element = some desc ∧
        w.descAt? id offset = (if doc.isBound element then some desc else none) ∧
        (w.descAt? id offset = n.enclosing? doc element ↔ doc.isBound element = true) := by
  intro w n
  have hn : Settled n := (valid_after s commands).settled
  have hm : Mirrors n w.context.schema doc := mirrors_after s commands hdoc
  obtain ⟨-, read, hread, hbind⟩ := (textual_of_set s hset fun _ _ _ _ h =>
    Document.built_ofText h).documents hdoc
  have hread := Document.tree_of_built hread
  have htree : doc.Tree := hbind ▸ hread.bind w.context.schema
  have hup : doc.BoundAbove := hbind ▸ boundAbove_bind hread w.context.schema
  have hmem := Document.mem_descendants_of_elementAt? helement
  obtain ⟨⟨desc, hdesc⟩, hscope⟩ := scope?_eq_enclosing? hm hn htree hup hroot hbound hmem
  have hat : w.descAt? id offset = n.scope? (doc.ref element) := by
    rw [descAt?, hdoc, Option.bind_some, helement, Option.bind_some]
  have hspot := spot?_listing_root w.context.schema htree hroot hbound
  obtain ⟨file, hfile, hpath⟩ := hm.exists_scope hspot
  refine ⟨⟨file, (hm.declared?_eq hn hspot).trans hfile, hpath⟩, desc, hdesc, ?_, ?_⟩
  · rw [hat, hscope, hdesc]
  · rw [hat, hscope, hdesc]
    cases doc.isBound element <;> simp

/-! ## An element that the schema does not know -/

/-- A file with an element in it that the schema does not know. -/
def stranger : List Command := [.setFile "A" "<Desc><Bogus/></Desc>".toList]

/-- At the root there is the file. -/
theorem descAt?_eq_stranger :
    let w := after Check.keyedSchema stranger
    (∀ doc, .setDocument doc ∈ stranger → doc.Built) ∧
      ∃ doc root file, w.context.document? 0 = some doc ∧ doc.root? = some root ∧
        doc.isBound root = true ∧ doc.elementAt? 2 = some root ∧
        w.context.names.declared? (doc.ref root) = some file ∧
        w.context.names.path? file = some [doc.name] ∧
        w.descAt? 0 2 = w.context.names.enclosing? doc root := by
  intro w
  have hset : ∀ doc, .setDocument doc ∈ stranger → doc.Built := by
    rintro doc (_ | ⟨_, ⟨⟩⟩)
  have hcomputed : (w.context.document? 0).bind (fun doc => doc.root?.map fun root =>
      (doc.isBound root, doc.elementAt? 2 == some root)) = some (true, true) := by decide +kernel
  obtain ⟨doc, hdoc, h⟩ := Option.bind_eq_some_iff.1 hcomputed
  obtain ⟨root, hroot, heq⟩ := Option.map_eq_some_iff.1 h
  obtain ⟨hbound, hat⟩ := Prod.mk.inj heq
  have helement := eq_of_beq hat
  obtain ⟨⟨file, hfile, hpath⟩, desc, -, -, hiff⟩ :=
    descAt?_eq Check.keyedSchema hset hdoc hroot hbound helement
  exact ⟨hset, doc, root, file, hdoc, hroot, hbound, helement, hfile, hpath, hiff.2 hbound⟩

/-- There is no desc around the element, although it stands in the file. -/
theorem descAt?_unbound :
    let w := after Check.keyedSchema stranger
    Check.keyedSchema.Loaded ∧ ∃ doc root element file, w.context.document? 0 = some doc ∧
      doc.root? = some root ∧ doc.isBound root = true ∧ doc.elementAt? 8 = some element ∧
      w.context.names.enclosing? doc element = some file ∧ w.context.names.path? file = some ["A"] ∧
      w.descAt? 0 8 = none := by
  intro w
  have hcomputed : (w.context.document? 0).bind (fun doc => (doc.root?).bind fun root =>
      (doc.elementAt? 8).bind fun element => (w.context.names.enclosing? doc element).map fun file =>
        (doc.isBound root, w.context.names.path? file, w.descAt? 0 8)) =
      some (true, some ["A"], none) := by decide +kernel
  obtain ⟨doc, hdoc, h⟩ := Option.bind_eq_some_iff.1 hcomputed
  obtain ⟨root, hroot, h⟩ := Option.bind_eq_some_iff.1 h
  obtain ⟨element, helement, h⟩ := Option.bind_eq_some_iff.1 h
  obtain ⟨file, hfile, heq⟩ := Option.map_eq_some_iff.1 h
  simp only [Prod.mk.injEq] at heq
  obtain ⟨hbound, hpath, hnone⟩ := heq
  exact ⟨Check.loaded_keyedSchema, doc, root, element, file, hdoc, hroot, hbound, helement, hfile, hpath,
    hnone⟩

end Workspace
end UILayout
