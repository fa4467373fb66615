import Mathlib
import UILayout.Proofs.Schema.Refused

/-!
# UILayout.Proofs.Schema.Repeated

Properties that are there twice in a frame type. A definition is refused when two classes of one chain
define a property of one name. A class that defines one twice itself is not: its table of properties has
each name once before anything is compared, so it is accepted, and the last definition stands.

* `repeats_refused`: which names that are there twice are refused, and what is accepted.
* `repeated_in_class_accepted`: a class with two properties of one name.
-/

namespace UILayout
namespace Schema

/-- The properties of the class of a number. -/
def ClassTables.entries (tables : ClassTables) (id : FrameClassId) : List (String × PropertyId) :=
  (tables.classes[id]?.map (·.properties.entries)).getD []

theorem flatMap_entries (tables : ClassTables) (chain : List FrameClassId) :
    (chain.filterMap (tables.classes[·]?)).flatMap (·.properties.entries) =
      chain.flatMap tables.entries := by
  induction chain with
  | nil => rfl
  | cons id rest ih =>
    rw [List.filterMap_cons, List.flatMap_cons, ← ih, ClassTables.entries]
    cases tables.classes[id]? <;> rfl

section

variable {defs : List FrameClassDef} {tables : ClassTables} {id : FrameClassId}

theorem mem_entries_iff (hof : tables.Of (defs.map (·.name)) defs) (hid : id < defs.length)
    (name : String) : name ∈ (tables.entries id).map (·.1) ↔ name ∈ propertyNames defs id := by
  obtain ⟨first, c, hc, -⟩ := hof.classes (List.getElem?_eq_getElem hid)
  rw [← mem_propertyNames_iff hof hc, ClassTables.entries, hc]
  rfl

/-- Of several definitions of one name in a class, the last one has its property under the name. -/
theorem exists_entry_of_last (hof : tables.Of (defs.map (·.name)) defs) {c : FrameClassDef}
    (hc : defs[id]? = some c) {before after : List PropertyDef} {p : PropertyDef}
    (hsplit : c.properties = before ++ p :: after) (hlast : p.name ∉ after.map (·.name)) :
    ∃ pid property, (p.name, pid) ∈ tables.entries id ∧ tables.properties[pid]? = some property ∧
      p.Gives id property := by
  obtain ⟨first, compiled, hcompiled, hgives⟩ := hof.classes hc
  have hk : c.properties[before.length]? = some p := by simp [hsplit]
  obtain ⟨property, hproperty, hp⟩ := hgives.declared hk
  refine ⟨first + before.length, property, ?_, hproperty, hp⟩
  have hget : compiled.properties.get? p.name = some (first + before.length) := by
    rw [hgives.own, hsplit]
    simp only [List.map_append, List.map_cons, List.zipIdx_append, List.zipIdx_cons, List.length_map]
    exact OrderedMap.get?_foldl_put_last _ _ _ (by simpa using hlast)
  rw [ClassTables.entries, hcompiled]
  exact OrderedMap.mem_of_get? hget

end

/-- A frame type, compiled from a definition, has all properties of its chain. No two classes of the chain
have one in common; so a name is written twice in the chain only where one class has it twice, and then
the last definition in that class stands. -/
structure FrameTypeDef.Merges (d : Definition) (s : Schema) (ft : FrameTypeDef) (f : FrameType) :
    Prop where
  lineage : ∃ primary c, d.frameClasses[primary]? = some c ∧ c.name = ft.frameClass ∧
    Lineage d.frameClasses primary f.classes
  apart : ∀ a ∈ f.classes, ∀ b ∈ f.classes, a ≠ b → ∀ name ∈ propertyNames d.frameClasses a,
    name ∉ propertyNames d.frameClasses b
  nodup_iff : (f.classes.flatMap (propertyNames d.frameClasses)).Nodup ↔
    ∀ id ∈ f.classes, (propertyNames d.frameClasses id).Nodup
  mem_keys : ∀ name, name ∈ f.properties.keys ↔
    name ∈ f.classes.flatMap (propertyNames d.frameClasses)
  last : ∀ {id c before p after}, id ∈ f.classes → d.frameClasses[id]? = some c →
    c.properties = before ++ p :: after → p.name ∉ after.map (·.name) →
      ∃ pid property, f.properties.get? p.name = some pid ∧ s.properties[pid]? = some property ∧
        p.Gives id property

theorem merges_of_gives {d : Definition} {s : Schema} {tables : ClassTables} {ft : FrameTypeDef}
    {f : FrameType} (hproperties : s.properties = tables.properties)
    (hnames : (d.frameClasses.map (·.name)).Nodup)
    (hof : tables.Of (d.frameClasses.map (·.name)) d.frameClasses)
    (hall : ∀ id < d.frameClasses.length, ∃ chain, Lineage d.frameClasses id chain)
    (h : ft.Gives (d.frameClasses.map (·.name)) tables f) : ft.Merges d s f := by
  obtain ⟨primary, c, hc, hname, hchain⟩ := h.lineage hof hnames hall
  obtain ⟨hentries, hnodup⟩ := entries_mergeAll h.properties
  have hkeys : f.properties.keys.Nodup := hnodup .nil
  rw [flatMap_entries] at hentries
  replace hentries : f.properties.entries = f.classes.flatMap tables.entries := hentries
  have hnames_mem : ∀ id ∈ f.classes, ∀ name, name ∈ (tables.entries id).map (·.1) ↔
      name ∈ propertyNames d.frameClasses id :=
    fun id hid => mem_entries_iff hof (hchain.lt_of_mem id hid)
  have hapart : f.classes.Pairwise fun a b => ∀ name ∈ propertyNames d.frameClasses a,
      name ∉ propertyNames d.frameClasses b := by
    rw [OrderedMap.keys, hentries, List.map_flatMap] at hkeys
    refine (List.nodup_flatMap.1 hkeys).2.imp_of_mem fun {a b} ha hb hdisjoint name hname hname' => ?_
    exact hdisjoint ((hnames_mem a ha name).2 hname) ((hnames_mem b hb name).2 hname')
  refine ⟨⟨primary, c, hc, hname, hchain⟩, ?_, ?_, fun name => ?_, ?_⟩
  · intro a ha b hb hne
    have hsymm : Std.Symm fun a b => ∀ name ∈ propertyNames d.frameClasses a,
        name ∉ propertyNames d.frameClasses b :=
      ⟨fun _ _ hab name hname hname' => hab name hname' hname⟩
    exact hapart.forall ha hb hne
  · rw [List.nodup_flatMap, and_iff_left]
    exact hapart.imp fun hab name hname hname' => hab name hname hname'
  · rw [OrderedMap.keys, hentries, List.map_flatMap, List.mem_flatMap, List.mem_flatMap]
    exact exists_congr fun id => and_congr_right fun hid => hnames_mem id hid name
  · intro id c before p after hid hc hsplit hlast
    obtain ⟨pid, property, hmem, hproperty, hp⟩ := exists_entry_of_last hof hc hsplit hlast
    refine ⟨pid, property, OrderedMap.get?_of_mem hkeys ?_, hproperties ▸ hproperty, hp⟩
    rw [hentries]
    exact List.mem_flatMap.2 ⟨id, hid, hmem⟩

/-- Two classes of a chain that define a property of one name are refused, and this fault is reported of
nothing else. In what is accepted, a name is there twice just where one class has it twice. -/
theorem repeats_refused (d : Definition) :
    (∀ s, ofDefinition d = .ok s →
      List.Forall₂ (FrameTypeDef.Merges d s) d.frameTypes s.frameTypes.toList) ∧
    ((∃ ft ∈ d.frameTypes, ∃ name, d.Repeats ft name) → ∃ fault, ofDefinition d = .error fault) ∧
    ∀ frameType name, ofDefinition d = .error (.duplicateProperty frameType name) →
      ∃ ft ∈ d.frameTypes, ft.name = frameType ∧ d.Repeats ft name := by
  have haccepted : ∀ s, ofDefinition d = .ok s →
      (d.frameClasses.map (·.name)).Nodup ∧
        List.Forall₂ (FrameTypeDef.Merges d s) d.frameTypes s.frameTypes.toList := by
    intro s h
    obtain ⟨_, _, _, _, _, -, -, -, htables, hframes, rfl⟩ := exists_of_ofDefinition h
    obtain ⟨hnames, hof, hall⟩ := lineage_of_compileClasses htables
    exact ⟨hnames, (of_compileFrameTypes hframes).imp fun ft f hgives =>
      merges_of_gives rfl hnames hof hall hgives⟩
  refine ⟨fun s h => (haccepted s h).2, ?_, fun frameType name hfault => ?_⟩
  · rintro ⟨ft, hft, name, primary, c, chain, hc, hname, hchain, a, ha, b, hb, hne, hna, hnb⟩
    cases h : ofDefinition d with
    | error fault => exact ⟨fault, rfl⟩
    | ok s =>
      obtain ⟨hnames, hmerges⟩ := haccepted s h
      obtain ⟨k, hk, rfl⟩ := List.getElem_of_mem hft
      have hmerge := hmerges.get hk (hmerges.length_eq ▸ hk)
      obtain ⟨primary', c', hc', hname', hchain'⟩ := hmerge.lineage
      cases eq_of_name_eq hnames hc hc' (hname.trans hname'.symm)
      rw [hchain.unique hnames hchain'] at ha hb
      exact absurd hnb (hmerge.apart a ha b hb hne name hna)
  · rcases of_ofDefinition_eq_error hfault with hsingle | ⟨_, hother, _⟩ | ⟨_, _, _, hother, _⟩ |
      ⟨_, _, _, _, hother, _⟩ | ⟨ft, hft, name', hsame, hrepeats⟩
    · exact hsingle.elim
    · cases hother
    · cases hother
    · cases hother
    · cases hsame
      exact ⟨ft, hft, rfl, hrepeats⟩

/-- A button, which is a control. Both classes define the property "Visible", as often as told. -/
def visibles (control button : Nat) : Definition :=
  let visible : PropertyDef := ⟨"Visible", false, false, none⟩
  { root := ⟨"Root", "Base"⟩
    simpleTypes := []
    complexTypes := [⟨"Base", [], ⟨false, false, false⟩, [], [],
      [⟨"Visible", .frameProperty, "Base", .empty, none, none⟩], none, none⟩]
    frameClasses := [⟨"Control", none, "Base", List.replicate control visible⟩,
      ⟨"Button", some "Control", "Base", List.replicate button visible⟩]
    frameTypes := [⟨"Button", "Button", "Base", false, none⟩] }

/-- Defined once in each class, the property is refused, as the chain has both. -/
theorem repeats_refused_once_each :
    ofDefinition (visibles 1 1) = .error (.duplicateProperty "Button" "Visible") ∧
      ∃ ft ∈ (visibles 1 1).frameTypes, (visibles 1 1).Repeats ft "Visible" := by
  have hload : ofDefinition (visibles 1 1) = .error (.duplicateProperty "Button" "Visible") := by cbv
  obtain ⟨ft, hft, -, hrepeats⟩ := (repeats_refused (visibles 1 1)).2.2 "Button" "Visible" hload
  exact ⟨hload, ft, hft, hrepeats⟩

/-- Defined twice in one class, it is accepted: the chain has two definitions of one name. -/
theorem repeated_in_class_accepted : ∃ s f, ofDefinition (visibles 0 2) = .ok s ∧
    s.frameTypes[0]? = some f ∧
    f.classes.flatMap (propertyNames (visibles 0 2).frameClasses) = ["Visible", "Visible"] := by
  have hrun : ((ofDefinition (visibles 0 2)).toOption.bind fun s => s.frameTypes[0]?.map fun f =>
      f.classes.flatMap (propertyNames (visibles 0 2).frameClasses)) =
        some ["Visible", "Visible"] := by
    cbv
  obtain ⟨s, hs, hf⟩ := Option.bind_eq_some_iff.1 hrun
  obtain ⟨f, hf, hnames⟩ := Option.map_eq_some_iff.1 hf
  exact ⟨s, f, ok_of_toOption hs, hf, hnames⟩

end Schema
end UILayout
