import UILayout.Proofs.Markup.Tree
import UILayout.Proofs.Strict.Document
import UILayout.Proofs.Workspace.Texts

/-!
# UILayout.Proofs.Workspace.Checked

Checking the documents of a session. A session that sets texts holds nothing that refers to something
that is not there, so that the check of a document and its strict form answer alike, and the reports
stand in the text that the document has been read from.

* `exists_content_of_site`: where the declarations of descs come from.
* `whole_after`: nothing is missing after a session.
* `check_sure`: the reports on the documents of a session.
-/

namespace UILayout

open Text Schema Markup Namespace

/-- A declaration of a desc is that of an element of a document that has entered the namespace. -/
theorem Namespace.exists_content_of_site (history : List Update) {id : DescId} {d : Desc} {site : Site}
    (hd : (Namespace.after history).live? id = some d) (hs : site ∈ d.sites) :
    ∃ u ∈ history, ∃ s doc, u.content? = some (s, doc) ∧
      ∃ element e, doc.element? element = some e ∧ site = Entering.siteOf doc element e := by
  have hitem : ∀ path, (Item.site path site).document? = some site.element.document := fun _ => rfl
  obtain ⟨path, hpath⟩ := (settled_after history).tree.exists_path hd
  have hholds : (Namespace.after history).Holds (.site path site) := ⟨id, d, hd, hpath, hs⟩
  clear hd hs hpath
  induction history using List.reverseRecOn with
  | nil => exact absurd hholds (not_holds_empty (hitem path))
  | append_singleton history u ih =>
    rw [after_append, (settled_after history).holds_edit u (hitem path)] at hholds
    split at hholds
    · obtain ⟨s, doc, hcontent, hlisted⟩ := hholds
      obtain ⟨element, e, he, hsite⟩ := (listing_within s doc).sites _ hlisted
      exact ⟨u, by simp, s, doc, hcontent, element, e, he, hsite⟩
    · obtain ⟨v, hv, hfound⟩ := ih hholds
      exact ⟨v, List.mem_append_left _ hv, hfound⟩

/-- The strict form of checking a document of a workspace: there has to be one. -/
def Strict.check (w : Workspace) (id : DocumentId) : Option (List Check.Report × Workspace) := do
  let doc ← w.context.document? id
  let found ← document w.context w.hierarchy doc
  return w.keep found

namespace Workspace

/-- A document that has been read fits the schema that it is bound to. -/
theorem fits_bind {s : Schema} (hs : s.Loaded) {commands : List Command} {read : Document}
    (hread : ReadIn commands read) : (s.bind read).Fits s := by
  obtain ⟨definition, hdefinition⟩ := hs
  obtain ⟨text, -, htext⟩ := hread
  exact .bind (closed_of_ofDefinition hdefinition) (Document.nested_ofText htext)

theorem whole_after {s : Schema} (hs : s.Loaded) {commands : List Command}
    (hc : ∀ c ∈ commands, c.FromTexts) : Strict.Whole (after s commands).context := by
  have h := textual_after hs hc
  obtain ⟨history, hnames, hall⟩ := h.names
  obtain ⟨definition, hdefinition⟩ := h.known
  refine ⟨closed_of_ofDefinition hdefinition, hnames ▸ settled_after history, ?_, ?_⟩
  · intro id doc hdoc
    obtain ⟨-, read, hread, rfl⟩ := h.documents hdoc
    exact fits_bind h.known hread
  · intro id d hd site hsite type htype
    rw [hnames] at hd
    obtain ⟨u, hu, s', doc, hcontent, element, e, he, rfl⟩ := exists_content_of_site history hd hsite
    obtain ⟨-, read, hread, rfl⟩ := hall u hu s' doc hcontent
    obtain ⟨b, hb, rfl⟩ := Option.map_eq_some_iff.1 htype
    exact ((fits_bind h.known hread).bindings he b hb).type

/-- Checking a document of a session goes through without anything being missing. No span of a report is
inverted, and those of which it is known for sure where they stand end inside the text. -/
theorem check_sure {s : Schema} (hs : s.Loaded) {commands : List Command}
    (hc : ∀ c ∈ commands, c.FromTexts) {id : DocumentId} {doc : Document}
    (hdoc : (after s commands).context.document? id = some doc) :
    let w := after s commands
    Strict.check w id = some (w.check id) ∧
      (∀ r ∈ (w.check id).1,
        r.span.start ≤ r.span.stop ∧ ∀ x ∈ r.related, x.span.start ≤ x.span.stop) ∧
      ∃ read, ReadIn commands read ∧ doc = w.context.schema.bind read ∧
        ∀ text, Document.ofText id read.path text = .ok read →
          ∀ r ∈ (w.check id).1, r.finding.Sure text →
            r.span.stop ≤ byteLength text ∧
              ∀ x ∈ r.related, x.document = id ∧ x.span.stop ≤ byteLength text := by
  intro w
  obtain ⟨hid, read, hread, rfl⟩ := (textual_after hs hc).documents hdoc
  obtain ⟨text, hset, htext⟩ := hread
  have hcheck : w.check id =
      w.keep (Check.document w.context w.hierarchy (w.context.schema.bind read)) := by
    unfold Workspace.check
    rw [hdoc]
  have hwhole := whole_after hs hc
  have hordered : ∀ {element : ElementId} {e : Element},
      (w.context.schema.bind read).element? element = some e → ∀ a ∈ e.attributes, a.Ordered := by
    intro element e he
    obtain ⟨found, hfound, binding?, rfl⟩ := Check.exists_of_element?_bind he
    exact fun a ha => Document.ordered_ofText htext hfound a ha
  refine ⟨?_, fun r hr => ?_, read, ⟨text, hset, htext⟩, rfl, fun text' htext' r hr hsure => ?_⟩
  · have hstrict := Strict.document_eq hwhole (valid_after s commands).coherent
      (hwhole.documents hdoc) hordered
    rw [Strict.check, hdoc, hcheck]
    simp only [Option.bind_eq_bind, Option.bind_some]
    rw [hstrict]
    rfl
  · rw [hcheck] at hr
    exact Check.reports_ordered htext w.context.schema w.context w.hierarchy hr
  · rw [hcheck] at hr
    obtain ⟨hstop, hrelated⟩ :=
      Check.reports_inside htext' w.context.schema w.context w.hierarchy hr hsure
    exact ⟨hstop, fun x hx => ⟨(hrelated x hx).1.trans hid, (hrelated x hx).2⟩⟩

/-! ## An attribute that nobody knows -/

/-- A schema of empty documents, which allows no attributes. -/
def descType : ComplexTypeDef := ⟨"Desc", [], ⟨false, false, false⟩, [], [], [], none, none⟩

def descDefinition : Definition := ⟨⟨"Desc", "Desc"⟩, [], [descType], [], []⟩

def descSchema : Schema where
  simpleTypes := #[]
  complexTypes := #[.bare descType]
  slots := #[⟨"Desc", .desc, 0, .empty, none, none⟩]
  classes := #[]
  properties := #[]
  frameTypes := #[]
  root := 0

theorem loaded_descSchema : descSchema.Loaded := by
  refine ⟨descDefinition, ?_⟩
  unfold ofDefinition
  simp only [descDefinition, List.map_nil]
  rw [compileComplex_singleton (.bare descType, #[]) rfl rfl]
  rfl

/-- A document with one attribute, of this name. -/
def attributed (name : String) : List Char := ("<Desc " ++ name ++ "=\"\"/>").toList

theorem check_sure_attributed :
    let w := after descSchema [.setFile "A" (attributed "a")]
    (∃ doc, w.context.document? 0 = some doc) ∧ Strict.check w 0 = some (w.check 0) ∧
      ∃ r ∈ (w.check 0).1, r.finding = .unknownAttribute "a" ∧
        r.span.stop ≤ byteLength (attributed "a") := by
  intro w
  have hsome : (w.context.document? 0).isSome = true := by decide +kernel
  obtain ⟨doc, hdoc⟩ := Option.isSome_iff_exists.1 hsome
  have hc : ∀ c ∈ [Command.setFile "A" (attributed "a")], c.FromTexts := by
    rintro c (_ | ⟨_, ⟨⟩⟩)
    trivial
  obtain ⟨hstrict, -, read, ⟨text, hset, hread⟩, rfl, hinside⟩ := check_sure loaded_descSchema hc hdoc
  obtain ⟨hpath, rfl⟩ := Command.setFile.inj (List.mem_singleton.1 hset)
  have hid : read.id = 0 := ((textual_after loaded_descSchema hc).documents hdoc).1
  have hreports : (w.check 0).1 = [.plain (.unknownAttribute "a") ⟨6, 7⟩] := by decide +kernel
  have hmem : Check.Report.plain (.unknownAttribute "a") ⟨6, 7⟩ ∈ (w.check 0).1 := by
    rw [hreports]
    exact List.mem_singleton_self _
  have hsure : (Check.Finding.unknownAttribute "a").Sure (attributed "a") := by
    refine ⟨?_, .inl (by decide +kernel)⟩
    rintro name ⟨⟩
    decide +kernel
  exact ⟨⟨_, hdoc⟩, hstrict, _, hmem, rfl, (hinside _ (hid ▸ hread) _ hmem hsure).1⟩

/-- Ten form feeds in front of the name: the report on the attribute runs past the end of the text. -/
theorem check_runs_past_end :
    let name := String.ofList (List.replicate 10 Markup.Locator.feed ++ ['a'])
    let w := after descSchema [.setFile "A" (attributed name)]
    descSchema.Loaded ∧ (∃ doc, w.context.document? 0 = some doc) ∧
      ∃ r ∈ (w.check 0).1, byteLength (attributed name) < r.span.stop := by
  intro name w
  have hsome : (w.context.document? 0).isSome = true := by decide +kernel
  have hreports : (w.check 0).1 = [.plain (.unknownAttribute name) ⟨16, 27⟩] := by decide +kernel
  refine ⟨loaded_descSchema, Option.isSome_iff_exists.1 hsome,
    .plain (.unknownAttribute name) ⟨16, 27⟩, ?_, by decide +kernel⟩
  rw [hreports]
  exact List.mem_singleton_self _

end Workspace
end UILayout
