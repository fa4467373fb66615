import Mathlib
import UILayout.Proofs.Check.Redeclared
import UILayout.Proofs.Outline.Symbols

/-!
# UILayout.Proofs.Outline.Document

The outline of a document, beside the list of the symbols of all documents. The outline walks the
document and asks the namespace about each element; the list walks the namespace and asks for the
elements. For a document that has been read the outline is in the order of the text, and it has all
symbols of the list that stand in the document, but one kind: a constant may have an empty name, and
elements without a name have no place in an outline.

* `mem_documentSymbols_iff`: the symbols of an outline.
* `ascending_documentSymbols`: their order.
* `mem_documentSymbols_of_desc`, `mem_documentSymbols_of_constant`: what the list of all symbols has is
  in the outline.
* `mem_documentSymbols_iff_named`: when a symbol of the list is in the outline of its document.
* `unnamed_constant_not_outlined`: one that is not.
-/

namespace UILayout

open Text Schema Markup Namespace

namespace Outline

section

variable {ctx : Context} {doc : Document} {x : Symbol}

/-- A symbol of an outline is that of an element with a name. -/
theorem mem_documentSymbols_iff : x ∈ documentSymbols ctx doc ↔
    ∃ id ∈ doc.descendants, ∃ e b a, doc.element? id = some e ∧ e.binding? = some b ∧
      e.attribute? "name" = some a ∧ a.value ≠ "" ∧
      symbolOf? ctx (doc.ref id) b a.value = some (x.kind, x.path) ∧
      x.name = a.value ∧ x.document = doc.id ∧ x.span = e.span ∧ x.nameSpan = a.valueSpan := by
  rw [documentSymbols, List.mem_filterMap]
  refine exists_congr fun id => and_congr_right fun _ => ?_
  constructor
  · intro h
    obtain ⟨e, he, h⟩ := Option.bind_eq_some_iff.1 h
    split at h
    · rename_i b a hb ha
      obtain ⟨ha, hne⟩ := Option.filter_eq_some_iff.1 ha
      obtain ⟨⟨kind, path⟩, hsymbol, rfl⟩ := Option.map_eq_some_iff.1 h
      exact ⟨e, b, a, he, hb, ha, by simpa using hne, hsymbol, rfl, rfl, rfl, rfl⟩
    · cases h
  · rintro ⟨e, b, a, he, hb, ha, hne, hsymbol, hname, hdocument, hspan, hnameSpan⟩
    have hfilter : (e.attribute? "name").filter (!·.value.isEmpty) = some a := by
      rw [ha, Option.filter_some, if_pos (by simpa using hne)]
    rw [he, Option.bind_some, hb, hfilter]
    dsimp only
    rw [hsymbol, Option.map_some, ← hname, ← hdocument, ← hspan, ← hnameSpan]

/-- The outline is in the order in which the elements start. -/
theorem ascending_documentSymbols (hdoc : doc.InOrder) :
    (documentSymbols ctx doc).Pairwise fun x y => x.span.start < y.span.start := by
  refine List.pairwise_filterMap.2 (hdoc.ascending_descendants.imp fun {i j} hlt x hx y hy => ?_)
  obtain ⟨e, he, hx⟩ := Option.bind_eq_some_iff.1 hx
  obtain ⟨e', he', hy⟩ := Option.bind_eq_some_iff.1 hy
  have hstart := hdoc.starts he he' hlt
  split at hx
  · split at hy
    · obtain ⟨-, -, rfl⟩ := Option.map_eq_some_iff.1 hx
      obtain ⟨-, -, rfl⟩ := Option.map_eq_some_iff.1 hy
      exact hstart
    · cases hy
  · cases hx

theorem nameSpan_of_attribute? {e : Element} {a : Attribute} (h : e.attribute? "name" = some a) :
    nameSpan e = a.valueSpan := by
  rw [nameSpan, h]
  rfl

theorem symbolOf?_of_desc {ref : ElementRef} {b : Binding} {name : String} {kind : DescKind} {id : DescId}
    {d : Desc} {k : SymbolKind} (hslot : DescKind.ofSlot? (ctx.schema.slotKind b.slot) = some kind)
    (hdeclared : ctx.names.declared? ref = some id) (hd : ctx.names.live? id = some d)
    (hkind : SymbolKind.ofDesc? d.kind = some k) : symbolOf? ctx ref b name = some (k, d.path) := by
  have hfound : ((ctx.names.declared? ref).bind (ctx.names.descs[·]?)).bind (fun d =>
      (SymbolKind.ofDesc? d.kind).map fun k => (k, d.path)) = some (k, d.path) := by
    rw [hdeclared, Option.bind_some, (live?_eq_some_iff.1 hd).1, Option.bind_some, hkind]
    rfl
  unfold symbolOf?
  cases hs : ctx.schema.slotKind b.slot <;> rw [hs] at hslot <;> cases hslot <;> exact hfound

/-- The outline of a document has the symbol of a desc that the document declares. -/
theorem mem_documentSymbols_of_desc (h : ctx.names.TakenIn ctx.schema doc) {id : DescId} {d : Desc}
    {k : SymbolKind} {element : ElementId} {e : Element} (hd : ctx.names.live? id = some d)
    (hkind : SymbolKind.ofDesc? d.kind = some k)
    (hdeclared : ctx.names.declared? (doc.ref element) = some id) (he : doc.element? element = some e) :
    d.name ≠ "" ∧
      (⟨d.name, d.path, k, doc.id, e.span, nameSpan e⟩ : Symbol) ∈ documentSymbols ctx doc := by
  have hget := (live?_eq_some_iff.1 hd).1
  have hroot : id ≠ Namespace.root := by
    intro hroot
    rw [(h.settled.tree.kind_eq_root_iff hget).2 hroot] at hkind
    cases hkind
  obtain ⟨above, hpath, hfile⟩ := h.settled.tree.path?_eq_append hd hroot
  have hspot := (h.declared?_iff hpath element).1 hdeclared
  have hid := (h.walked.spots hspot).1
  rcases (listing_meant ctx.schema doc).declared hspot with ⟨-, htop⟩ | hdesc
  · -- a file has no symbol
    have habove : above = [] := by simpa using congrArg List.length htop
    rw [hfile.1 habove] at hkind
    cases hkind
  · obtain ⟨e', b, above', name, kind, he', hb, hrole, hname⟩ := hdesc
    rw [he] at he'
    cases he'
    obtain rfl : d.name = name := List.singleton_inj.1 (List.append_inj_right' hname rfl)
    obtain ⟨hne, a, ha, hvalue⟩ := Role.name_of_desc hrole
    refine ⟨hne, mem_documentSymbols_iff.2 ⟨element, hid, e, b, a, he, hb, ha, hvalue ▸ hne, ?_,
      hvalue.symm, rfl, rfl, nameSpan_of_attribute? ha⟩⟩
    exact symbolOf?_of_desc (Role.ofSlot?_of_desc hrole) hdeclared hd hkind

/-- The outline of a document has the symbol of a constant of the document, if the constant has a
name. -/
theorem mem_documentSymbols_of_constant {id : ElementId} {e : Element} {c : Constant}
    (hid : id ∈ doc.descendants) (hc : IsConstant ctx.schema doc id e c) (hname : c.name ≠ "") :
    (⟨c.name, c.name, .constant, doc.id, e.span, nameSpan e⟩ : Symbol) ∈ documentSymbols ctx doc := by
  obtain ⟨b, value, he, hb, hrole, -⟩ := hc
  obtain ⟨hslot, a, ha, hvalue⟩ := Role.name_of_constant hrole
  refine mem_documentSymbols_iff.2 ⟨id, hid, e, b, a, he, hb, ha, hvalue ▸ hname, ?_, hvalue.symm, rfl,
    rfl, nameSpan_of_attribute? ha⟩
  rw [symbolOf?, hslot, hvalue]

end

/-- Every symbol of a list stands for something. -/
theorem OneForEach.exists_subject {ctx : Context} {symbols : List Symbol} (h : OneForEach ctx symbols)
    {x : Symbol} (hx : x ∈ symbols) : ∃ subject, StandsFor ctx subject x := by
  obtain ⟨subjects, -, -, hall⟩ := h
  induction hall with
  | nil => cases hx
  | cons hstands _ ih =>
    rcases List.mem_cons.1 hx with rfl | hx
    · exact ⟨_, hstands⟩
    · exact ih hx

end Outline

namespace Workspace

section

variable (s : Schema) {commands : List Command}

/-- A document that is there, as the namespace has taken it in. -/
theorem exists_takenIn (hc : ∀ c ∈ commands, c.SetsRead) {r : ElementRef} {e : Element}
    (he : (after s commands).context.element? r = some e) :
    ∃ doc, (after s commands).context.document? r.document = some doc ∧ doc.id = r.document ∧
      doc.element? r.element = some e ∧
      (after s commands).context.names.TakenIn (after s commands).context.schema doc := by
  obtain ⟨doc, hdoc, he⟩ := Option.bind_eq_some_iff.1 he
  exact ⟨doc, hdoc, ((read_after s hc).documents hdoc).1, he,
    Check.takenIn_after s commands hdoc (Check.inOrder_after s hc hdoc)⟩

theorem documentSymbols_of_document {w : Workspace} {id : DocumentId} {doc : Document}
    (hdoc : w.context.document? id = some doc) :
    w.documentSymbols id = Outline.documentSymbols w.context doc := by
  rw [Workspace.documentSymbols, hdoc]
  rfl

theorem name_ne_of_mem_documentSymbols {w : Workspace} {id : DocumentId} {x : Outline.Symbol}
    (hx : x ∈ w.documentSymbols id) : x.name ≠ "" := by
  unfold Workspace.documentSymbols at hx
  cases hdoc : w.context.document? id with
  | none =>
    rw [hdoc] at hx
    cases hx
  | some doc =>
    rw [hdoc] at hx
    obtain ⟨-, -, -, -, a, -, -, -, hne, -, hname, -⟩ := Outline.mem_documentSymbols_iff.1 hx
    rw [hname]
    exact hne

/-- The symbol of a frame, an animation or a state group is in the outline of its document; that of a
constant is so just when the constant has a name. -/
theorem outlined_of_standsFor (hc : ∀ c ∈ commands, c.SetsRead) {subject : Outline.Subject}
    {x : Outline.Symbol} (h : Outline.StandsFor (after s commands).context subject x) :
    (x.name ≠ "" → x ∈ (after s commands).documentSymbols x.document) ∧
      (x.name = "" → x.kind = .constant) := by
  cases h with
  | @desc id d kind site e hd hkind hsite he =>
    obtain ⟨doc, hdoc, hid, he, htaken⟩ := exists_takenIn s hc he
    have hmem : site ∈ d.sitesIn doc.id := by
      refine List.mem_filter.2 ⟨List.mem_of_head? hsite, ?_⟩
      exact decide_eq_true hid.symm
    obtain ⟨element, e', hdeclared, he', rfl⟩ := (htaken.mem_sitesIn_iff hd site).1 hmem
    obtain rfl : e' = e := Option.some.inj (he'.symm.trans he)
    obtain ⟨hne, hin⟩ := Outline.mem_documentSymbols_of_desc htaken hd hkind hdeclared he
    refine ⟨fun _ => ?_, fun hempty => absurd hempty hne⟩
    rw [documentSymbols_of_document hdoc]
    exact hin
  | @constant name constants c e hget hhead he =>
    refine ⟨fun hne => ?_, fun _ => rfl⟩
    obtain ⟨history, hnames, hcurrent⟩ := stepped_after s commands
    have hlists : Lists (after s commands).context.names.constants name c :=
      ⟨constants, hget, List.mem_of_head? hhead⟩
    rw [hnames] at hlists
    obtain ⟨rfl, s', doc, hcur, id, hid, e', hconstant⟩ := content_of_constant history hlists
    rw [hcurrent] at hcur
    obtain ⟨doc', hdoc, heq⟩ := Option.map_eq_some_iff.1 hcur
    cases heq
    have ⟨_, _, he', _, _, hsite⟩ := hconstant
    rw [Context.element?, hdoc, hsite] at he
    obtain rfl : e' = e := Option.some.inj (he'.symm.trans he)
    have hin := Outline.mem_documentSymbols_of_constant hid hconstant hne
    rw [documentSymbols_of_document hdoc, hsite]
    exact hin

end

/-- In a session with documents that have been read, outlines are in the order of the text. The list of
all symbols agrees with them: each of its symbols is, with all that it has, in the outline of its
document, unless it is a constant with an empty name. -/
theorem mem_documentSymbols_iff_named (s : Schema) {commands : List Command}
    (hc : ∀ c ∈ commands, c.SetsRead) :
    let w := after s commands
    (∀ id, (w.documentSymbols id).Pairwise fun x y => x.span.start < y.span.start) ∧
      ∀ x ∈ w.workspaceSymbols none,
        (x ∈ w.documentSymbols x.document ↔ x.name ≠ "") ∧ (x.name = "" → x.kind = .constant) := by
  intro w
  constructor
  · intro id
    unfold Workspace.documentSymbols
    cases hdoc : w.context.document? id with
    | none => exact .nil
    | some doc => exact Outline.ascending_documentSymbols (Check.inOrder_after s hc hdoc)
  · intro x hx
    have hone := Outline.oneForEach_of_present (present_after s commands)
      (valid_after s commands).settled.constants
    obtain ⟨subject, hstands⟩ := hone.exists_subject hx
    obtain ⟨hin, hconstant⟩ := outlined_of_standsFor s hc hstands
    exact ⟨⟨name_ne_of_mem_documentSymbols, hin⟩, hconstant⟩

/-- Frames and constants in the root of a document. -/
def mixed : Definition :=
  { root := ⟨"Desc", "Desc"⟩
    simpleTypes := []
    complexTypes := [⟨"Desc", [], ⟨false, false, true⟩, [], [],
      [⟨"Frame", .frame, "Desc", .empty, none, none⟩,
        ⟨"Constant", .constant, "Desc", .empty, none, none⟩], none, none⟩]
    frameClasses := []
    frameTypes := [] }

/-- That definition, compiled. -/
def mixedSchema : Schema :=
  { simpleTypes := #[]
    complexTypes := #[⟨"Desc", .empty, [], .ofList [("Frame", 0), ("Constant", 1)], ⟨false, false, true⟩,
      .empty, .empty, .empty, .empty, .ofList [("Frame", ()), ("Constant", ())], none, none⟩]
    slots := #[⟨"Frame", .frame, 0, .empty, none, none⟩, ⟨"Constant", .constant, 0, .empty, none, none⟩,
      ⟨"Desc", .desc, 0, .empty, none, none⟩]
    classes := #[]
    properties := #[]
    frameTypes := #[]
    root := 2 }

theorem ofDefinition_mixed : ofDefinition mixed = .ok mixedSchema := by
  cbv

/-- A file with a frame `F`, and a constant behind it. -/
def frameAndConstant (name : String) : List Command :=
  [.setFile "A"
    ("<Desc><Frame name=\"F\"/><Constant name=\"" ++ name ++ "\" val=\"1\"/></Desc>").toList]

theorem setsRead_frameAndConstant (name : String) : ∀ c ∈ frameAndConstant name, c.SetsRead := by
  rintro c (_ | ⟨_, ⟨⟩⟩)
  trivial

/-- A constant with a name is in the outline, and so is the frame. -/
theorem mem_documentSymbols_named :
    let w := after mixedSchema (frameAndConstant "X")
    (∀ c ∈ frameAndConstant "X", c.SetsRead) ∧
      (w.documentSymbols 0).Pairwise (fun x y => x.span.start < y.span.start) ∧
      (∃ x ∈ w.workspaceSymbols none, x.name = "X") ∧
      ∀ x ∈ w.workspaceSymbols none, x ∈ w.documentSymbols x.document := by
  intro w
  have hnames : (Outline.allSymbols w.context).map (·.name) = ["F", "X"] := by decide +kernel
  obtain ⟨horder, hall⟩ := mem_documentSymbols_iff_named mixedSchema (setsRead_frameAndConstant "X")
  refine ⟨setsRead_frameAndConstant "X", horder 0, ?_, fun x hx => (hall x hx).1.2 fun hempty => ?_⟩
  · have hmem : "X" ∈ (Outline.allSymbols w.context).map (·.name) := by
      rw [hnames]
      decide
    obtain ⟨x, hx, hname⟩ := List.mem_map.1 hmem
    exact ⟨x, (Outline.mem_workspaceSymbols_none _).2 hx, hname⟩
  · have hmem := List.mem_map_of_mem (f := (·.name)) ((Outline.mem_workspaceSymbols_none _).1 hx)
    rw [hnames, hempty] at hmem
    exact absurd hmem (by decide)

/-- A constant with an empty name is in the list of all symbols, and in no outline. -/
theorem unnamed_constant_not_outlined :
    ofDefinition mixed = .ok mixedSchema ∧ (∀ c ∈ frameAndConstant "", c.SetsRead) ∧
      let w := after mixedSchema (frameAndConstant "")
      ∃ x ∈ w.workspaceSymbols none, x.kind = .constant ∧ x ∉ w.documentSymbols x.document := by
  have hlisted : (⟨"", "", .constant, 0, ⟨23, 50⟩, ⟨38, 40⟩⟩ : Outline.Symbol) ∈
      Outline.allSymbols (after mixedSchema (frameAndConstant "")).context := by decide +kernel
  refine ⟨ofDefinition_mixed, setsRead_frameAndConstant "", _,
    (Outline.mem_workspaceSymbols_none _).2 hlisted, rfl, fun hin => ?_⟩
  exact name_ne_of_mem_documentSymbols hin rfl

end Workspace
end UILayout
