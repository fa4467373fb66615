import Mathlib
import UILayout.Proofs.Outline.Links
import UILayout.Proofs.Schema.Users

/-!
# UILayout.Proofs.Workspace.Frames

Frames and their frame types. A frame is bound to the complex type of the frame type that it names, and
everything that asks for its frame type gets the first one that uses this complex type: the filters of
selectors and the check of classes alike.

* `type?_of_firstDeclared?`: the complex type of a desc, by its first declaration.
* `answersAs_of_type?`: what is answered about a desc of a complex type.
* `frameType_kept_iff`: when that is the frame type which was written.
-/

namespace UILayout

open Schema Markup Namespace

/-- The slot of the first declaration of a desc, and the value that it has for `type`. -/
def Context.firstDeclared? (ctx : Context) (desc : DescId) : Option (SlotId × Option String) := do
  let d ← ctx.names.live? desc
  let site ← d.sites.head?
  let e ← ctx.element? site.element
  let b ← e.binding?
  return (b.slot, e.value? "type")

namespace Hierarchy

variable {ctx : Context}

theorem detailOf_of_frame {main : DescId} {sources : List DescId}
    (h : (detailOf ctx main sources).kind = .frame) : detailOf ctx main sources =
      .frame ((ctx.names.descs[main]?.bind (·.type?)).bind ctx.schema.frameTypeOf?) := by
  unfold detailOf at h ⊢
  split at h
  case h_2 => rfl
  all_goals cases h

/-- The frame type of a node is that of its main desc. -/
theorem Coherent.detail_of_frame {h : Hierarchy} (hc : Coherent ctx h) {node : NodeId} {n : Node}
    (hn : h.live? node = some n) (hframe : n.kind = .frame) :
    n.detail = .frame ((ctx.names.descs[n.main]?.bind (·.type?)).bind ctx.schema.frameTypeOf?) := by
  have hhung := hc.hung hn
  cases hparent : n.parent? with
  | none =>
    have hroot : n.detail = .root := congrArg View.detail (hhung.root hparent).2
    rw [Node.kind, hroot] at hframe
    cases hframe
  | some parent =>
    have hdetail : n.detail = detailOf ctx n.main n.sources := detail_of_viewOf? (hhung.made hparent).1
    rw [hdetail]
    exact detailOf_of_frame (hdetail ▸ hframe)

end Hierarchy

namespace Workspace

/-- Whatever asks for the frame type of a desc gets this one. -/
structure AnswersAs (w : Workspace) (id : DescId) (f : FrameType) : Prop where
  desc : w.context.frameTypeOf? id = some f
  classCheck : ∀ a frameClass, Check.checkClass w.context a id frameClass = [] ↔
    f.hasClass w.context.schema frameClass = true
  node : ∀ {node n}, w.hierarchy.live? node = some n → n.main = id → n.kind = .frame →
    w.hierarchy.frameType? w.context node = some f
  typeFilter : ∀ {node n}, w.hierarchy.live? node = some n → n.main = id → n.kind = .frame →
    ∀ p : Selector.Param, p.filter? = some .type →
      (w.hierarchy.passes w.context node p = true ↔ f.name = p.value.text)

section

variable (s₀ : Schema) (commands : List Command) {desc : DescId} {slot : SlotId}

/-- A desc has the complex type that the slot of its first declaration has for this one. -/
theorem type?_of_firstDeclared? {value? : Option String}
    (h : (after s₀ commands).context.firstDeclared? desc = some (slot, value?)) :
    ∃ d, (after s₀ commands).context.names.live? desc = some d ∧
      d.type? = some ((after s₀ commands).context.schema.elementType slot value?) := by
  obtain ⟨d, hd, h⟩ := Option.bind_eq_some_iff.1 h
  obtain ⟨site, hsite, h⟩ := Option.bind_eq_some_iff.1 h
  obtain ⟨e, he, h⟩ := Option.bind_eq_some_iff.1 h
  obtain ⟨b, hb, h⟩ := Option.bind_eq_some_iff.1 h
  cases h
  obtain ⟨rest, hsites⟩ := List.head?_eq_some_iff.1 hsite
  refine ⟨d, hd, ?_⟩
  have hmem : site ∈ d.sites := hsites ▸ List.mem_cons_self
  obtain ⟨doc, e', hdoc, he', hsiteOf⟩ := exists_siteOf s₀ commands hd hmem
  rw [Context.element?, hdoc, Option.bind_some, he'] at he
  cases he
  have htextual : Textual (fun _ => True) (fun _ => True) (after s₀ commands).context :=
    textual_of_set s₀ (fun _ _ => trivial) fun _ _ _ _ _ => trivial
  obtain ⟨-, read, -, rfl⟩ := htextual.documents hdoc
  have htype : site.type? = some b.type := by
    rw [hsiteOf]
    exact congrArg (Option.map (·.type)) hb
  have hbinding := binding_eq_bindingIn _ read he' hb
  rw [Desc.type?, hsites, List.findSome?_cons, htype, hbinding, bindingIn]

theorem answersAs_of_type? {w : Workspace} (hw : Hierarchy.Coherent w.context w.hierarchy) {d : Desc}
    {type : ComplexTypeId} {first : FrameTypeId} {f : FrameType}
    (hd : w.context.names.live? desc = some d) (htype : d.type? = some type)
    (hfirst : w.context.schema.FirstUser type first f) : w.AnswersAs desc f := by
  have hfound : (d.type?.bind w.context.schema.frameTypeOf?).bind (w.context.schema.frameTypes[·]?) =
      some f := by
    rw [htype, Option.bind_some, frameTypeOf?_eq_some_iff.2 ⟨f, hfirst⟩, Option.bind_some]
    exact hfirst.entry
  have hdesc : w.context.frameTypeOf? desc = some f := by
    rw [Context.frameTypeOf?, hd, Option.bind_some]
    exact hfound
  have hnode : ∀ {node n}, w.hierarchy.live? node = some n → n.main = desc → n.kind = .frame →
      w.hierarchy.frameType? w.context node = some f := by
    rintro node n hn rfl hframe
    rw [Hierarchy.frameType?, Hierarchy.node?_of_live? hn, Option.bind_some, Hierarchy.Node.frameType?,
      hw.detail_of_frame hn hframe, (live?_eq_some_iff.1 hd).1]
    exact hfound
  refine ⟨hdesc, fun a frameClass => ?_, hnode, fun {node n} hn hmain hframe p hp => ?_⟩
  · rw [Check.checkClass, hdesc]
    dsimp only
    split
    · rename_i hclass
      exact iff_of_true rfl hclass
    · rename_i hclass
      exact iff_of_false (List.cons_ne_nil _ _) hclass
  · rw [Hierarchy.passes, hp]
    dsimp only
    rw [hnode hn hmain hframe, Option.any_some, decide_eq_true_iff]

end

/-- A frame of a frame type is taken for one of the first frame type that uses the same complex type, by
whatever asks for it; so the frame type is kept just when no other one uses the complex type before it. -/
theorem frameType_kept_iff {d : Definition} {s : Schema} (h : ofDefinition d = .ok s) {slot : SlotId}
    (hslot : s.slotKind slot = .frame) {i : FrameTypeId} {f : FrameType}
    (hf : s.frameTypes[i]? = some f) :
    (s.frameTypeOf? (s.elementType slot (some f.name)) = some i ↔
      ∀ j < i, ∀ g, s.frameTypes[j]? = some g → ¬ g.Uses f.type) ∧
    ∃ first g, s.FirstUser f.type first g ∧ first ≤ i ∧
      s.frameTypeOf? (s.elementType slot (some f.name)) = some first ∧ (g.name = f.name ↔ first = i) ∧
      ∀ s₀ commands, (after s₀ commands).context.schema = s →
        ∀ desc, (after s₀ commands).context.firstDeclared? desc = some (slot, some f.name) →
          (after s₀ commands).AnswersAs desc g := by
  have hnames := nodup_names_of_ofDefinition h
  have htype := elementType_of_frame hnames hslot hf
  obtain ⟨first, g, hfirst, hle⟩ := exists_firstUser hf (.inl rfl)
  have hfound : s.frameTypeOf? f.type = some first := frameTypeOf?_eq_some_iff.2 ⟨g, hfirst⟩
  rw [htype, hfound, Option.some_inj, hfirst.eq_iff hf]
  refine ⟨Iff.rfl, first, g, hfirst, hle, rfl, ⟨fun hname => ?_, ?_⟩, ?_⟩
  · exact frameType_eq_of_name_eq hnames hfirst.entry hf hname
  · rintro rfl
    rw [Option.some_inj.1 (hfirst.entry.symm.trans hf)]
  · rintro s₀ commands rfl desc hdeclared
    obtain ⟨d, hd, hcomplex⟩ := type?_of_firstDeclared? s₀ commands hdeclared
    rw [htype] at hcomplex
    exact answersAs_of_type? (valid_after s₀ commands).coherent hd hcomplex hfirst

/-- Panels and buttons, where a panel has the type of buttons as a custom desc. -/
def panels : Definition :=
  { root := ⟨"Desc", "Desc"⟩
    simpleTypes := []
    complexTypes := [⟨"Desc", [], ⟨false, false, false⟩, [], [],
        [⟨"Frame", .frame, "CFrame", .empty, none, none⟩], none, none⟩,
      ⟨"CFrame", [], ⟨false, false, false⟩, [], [], [], none, none⟩,
      ⟨"CButton", [], ⟨false, false, false⟩, [], [], [], none, none⟩]
    frameClasses := [⟨"CFrame", none, "CFrame", []⟩, ⟨"CButton", some "CFrame", "CButton", []⟩]
    frameTypes := [⟨"Panel", "CFrame", "CFrame", false, some "CButton"⟩,
      ⟨"Button", "CButton", "CButton", false, none⟩] }

/-- That definition, compiled. -/
def panelSchema : Schema :=
  { simpleTypes := #[]
    complexTypes := #[
      ⟨"Desc", .empty, [], .ofList [("Frame", 0)], ⟨false, false, false⟩, .empty, .empty, .empty, .empty,
        .ofList [("Frame", ())], none, none⟩,
      ⟨"CFrame", .empty, [], .empty, ⟨false, false, false⟩, .empty, .empty, .empty, .empty, .empty,
        none, none⟩,
      ⟨"CButton", .empty, [], .empty, ⟨false, false, false⟩, .empty, .empty, .empty, .empty, .empty,
        none, none⟩]
    slots := #[⟨"Frame", .frame, 1, .empty, none, none⟩, ⟨"Desc", .desc, 0, .empty, none, none⟩]
    classes := #[⟨"CFrame", none, 1, .empty⟩, ⟨"CButton", some 0, 2, .empty⟩]
    properties := #[]
    frameTypes := #[⟨"Panel", false, some 2, [0], .empty, 1⟩, ⟨"Button", false, none, [1, 0], .empty, 2⟩]
    root := 1 }

theorem ofDefinition_panels : ofDefinition panels = .ok panelSchema := by
  cbv

/-- Sets a panel and a button beside it. -/
def panelFile : List Command :=
  [.setFile "A" "<Desc><Frame type=\"Panel\" name=\"P\"/><Frame type=\"Button\" name=\"B\"/></Desc>".toList]

theorem schema_panelFile : (after panelSchema panelFile).context.schema = panelSchema :=
  schema_setFile _ _ _

/-- Panels come first, so a panel is a panel. -/
theorem frameType_kept_iff_panel : ∃ f, panelSchema.slotKind 0 = .frame ∧
    panelSchema.frameTypes[0]? = some f ∧
    panelSchema.frameTypeOf? (panelSchema.elementType 0 (some f.name)) = some 0 ∧
    (after panelSchema panelFile).AnswersAs 2 f := by
  have hf : panelSchema.frameTypes[0]? = some ⟨"Panel", false, some 2, [0], .empty, 1⟩ := rfl
  have hslot : panelSchema.slotKind 0 = .frame := rfl
  obtain ⟨-, first, g, hfirst, hle, hfound, -, hanswers⟩ :=
    frameType_kept_iff ofDefinition_panels hslot hf
  obtain rfl := Nat.le_zero.1 hle
  cases hfirst.entry.symm.trans hf
  have hdeclared : (after panelSchema panelFile).context.firstDeclared? 2 = some (0, some "Panel") := by
    decide +kernel
  exact ⟨_, hslot, hf, hfound, hanswers panelSchema panelFile schema_panelFile 2 hdeclared⟩

/-- The panel takes the complex type of buttons for its custom desc, so a button is taken for a panel. -/
theorem button_taken_for_panel : ofDefinition panels = .ok panelSchema ∧
    panelSchema.slotKind 0 = .frame ∧ ∃ f, panelSchema.frameTypes[1]? = some f ∧
      panelSchema.frameTypeOf? (panelSchema.elementType 0 (some f.name)) = some 0 ∧
      let ctx := (after panelSchema panelFile).context
      ctx.schema = panelSchema ∧ ctx.firstDeclared? 3 = some (0, some f.name) ∧ f.name = "Button" ∧
        (ctx.frameTypeOf? 3).map (·.name) = some "Panel" := by
  refine ⟨ofDefinition_panels, rfl, _, rfl, ?_, schema_panelFile, ?_, rfl, ?_⟩
  all_goals decide +kernel

end Workspace
end UILayout
