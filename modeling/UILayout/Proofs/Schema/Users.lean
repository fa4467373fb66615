import UILayout.Proofs.Schema.FrameTypes

/-!
# UILayout.Proofs.Schema.Users

Frame types, and the complex types that they use: for their declarations, or as a custom desc. A frame is
bound to the complex type that its frame type names, and the frame type is found again from that: the first
one that uses the complex type, for whatever. So it is the frame type of the frame just when no other one
uses the complex type before it.

* `nodup_names_of_ofDefinition`: frame types have names of their own.
* `elementType_of_frame`: the complex type of a frame.
* `frameTypeOf?_eq_some_iff`: the frame type that is found.
* `FirstUser.eq_iff`: when it is the one that was written.
-/

namespace UILayout
namespace Schema

/-- A frame type uses a complex type: its declarations have it, or it is the custom desc. -/
def FrameType.Uses (f : FrameType) (type : ComplexTypeId) : Prop :=
  f.type = type ∨ f.customDesc? = some type

/-- The first frame type that uses a complex type. -/
structure FirstUser (s : Schema) (type : ComplexTypeId) (id : FrameTypeId) (f : FrameType) : Prop where
  entry : s.frameTypes[id]? = some f
  uses : f.Uses type
  first : ∀ j < id, ∀ g, s.frameTypes[j]? = some g → ¬ g.Uses type

theorem nodup_names_of_compileFrameTypes {classNames typeNames : List String} {tables : ClassTables}
    {defs : List FrameTypeDef} {frameTypes : Array FrameType}
    (h : compileFrameTypes classNames typeNames tables defs = .ok frameTypes) :
    (frameTypes.toList.map (·.name)).Nodup := by
  refine foldlM_induct (P := fun _ (done : Array FrameType) => (done.toList.map (·.name)).Nodup) h .nil ?_
  intro passed d done done' hdone hstep
  obtain ⟨f, rfl, -, hnew⟩ := of_compileFrameType hstep
  rw [Array.toList_push, List.map_append, List.map_singleton]
  refine List.nodup_append.2 ⟨hdone, List.nodup_singleton _, fun name hname other hother => ?_⟩
  obtain ⟨g, hg, rfl⟩ := List.mem_map.1 hname
  rw [List.mem_singleton.1 hother]
  exact hnew g (Array.mem_toList_iff.1 hg)

theorem nodup_names_of_ofDefinition {d : Definition} {s : Schema} (h : ofDefinition d = .ok s) :
    (s.frameTypes.toList.map (·.name)).Nodup := by
  obtain ⟨_, _, _, _, _, -, -, -, -, hframes, rfl⟩ := exists_of_ofDefinition h
  exact nodup_names_of_compileFrameTypes hframes

section

variable {s : Schema} {i j first : FrameTypeId} {f g : FrameType} {type : ComplexTypeId} {slot : SlotId}

/-- Frame types of one name are one frame type. -/
theorem frameType_eq_of_name_eq (hnames : (s.frameTypes.toList.map (·.name)).Nodup)
    (hf : s.frameTypes[i]? = some f) (hg : s.frameTypes[j]? = some g) (hname : f.name = g.name) : i = j := by
  rw [← Array.getElem?_toList] at hf hg
  exact index_eq_of_name_eq hnames hf hg hname

theorem frameTypeNamed?_of_name (hnames : (s.frameTypes.toList.map (·.name)).Nodup)
    (hf : s.frameTypes[i]? = some f) : s.frameTypeNamed? f.name = some i :=
  (findIdx?_name_eq_some_iff hnames).2 ⟨f, hf, rfl⟩

/-- A frame has the complex type of the frame type that it names. -/
theorem elementType_of_frame (hnames : (s.frameTypes.toList.map (·.name)).Nodup)
    (hslot : s.slotKind slot = .frame) (hf : s.frameTypes[i]? = some f) :
    s.elementType slot (some f.name) = f.type := by
  unfold slotKind at hslot
  unfold elementType
  cases hd : s.slots[slot]? with
  | none =>
    rw [hd] at hslot
    cases hslot
  | some d =>
    rw [hd] at hslot
    have hkind : d.kind = .frame := hslot
    simp only [frameTypeNamed?_of_name hnames hf, Option.bind_some, hf, Option.map_some, if_pos hkind]
    rfl

theorem frameTypeOf?_eq_some_iff : s.frameTypeOf? type = some i ↔ ∃ f, s.FirstUser type i f := by
  have huses : ∀ f : FrameType, (decide (f.type = type) || decide (f.customDesc? = some type)) = true ↔
      f.Uses type := fun f => by
    rw [Bool.or_eq_true, decide_eq_true_iff, decide_eq_true_iff, FrameType.Uses]
  rw [frameTypeOf?, Array.findIdx?_eq_some_iff_getElem]
  constructor
  · rintro ⟨hi, hfound, hbefore⟩
    refine ⟨s.frameTypes[i], Array.getElem?_eq_getElem hi, (huses _).1 hfound, fun j hj g hg => ?_⟩
    obtain ⟨hj', rfl⟩ := Array.getElem?_eq_some_iff.1 hg
    exact fun hu => hbefore j hj ((huses _).2 hu)
  · rintro ⟨f, hf, hu, hfirst⟩
    obtain ⟨hi, rfl⟩ := Array.getElem?_eq_some_iff.1 hf
    exact ⟨hi, (huses _).2 hu, fun j hj hfound =>
      hfirst j hj _ (Array.getElem?_eq_getElem (Nat.lt_trans hj hi)) ((huses _).1 hfound)⟩

/-- What uses a complex type is the first to do so, or comes behind the first. -/
theorem exists_firstUser (hf : s.frameTypes[i]? = some f) (hu : f.Uses type) :
    ∃ first g, s.FirstUser type first g ∧ first ≤ i := by
  induction i using Nat.strong_induction_on generalizing f with
  | _ i ih =>
    by_cases hfirst : ∀ j < i, ∀ g, s.frameTypes[j]? = some g → ¬ g.Uses type
    · exact ⟨i, f, ⟨hf, hu, hfirst⟩, Nat.le_refl i⟩
    · push Not at hfirst
      obtain ⟨j, hj, g, hg, hug⟩ := hfirst
      obtain ⟨first, g', hfirst, hle⟩ := ih j hj hg hug
      exact ⟨first, g', hfirst, Nat.le_trans hle (Nat.le_of_lt hj)⟩

namespace FirstUser

theorem unique (h : s.FirstUser type i f) (h' : s.FirstUser type j g) : i = j := by
  rcases Nat.lt_trichotomy i j with hlt | heq | hgt
  · exact absurd h.uses (h'.first i hlt f h.entry)
  · exact heq
  · exact absurd h'.uses (h.first j hgt g h'.entry)

theorem eq_iff (h : s.FirstUser f.type first g) (hf : s.frameTypes[i]? = some f) :
    first = i ↔ ∀ j < i, ∀ g, s.frameTypes[j]? = some g → ¬ g.Uses f.type := by
  constructor
  · rintro rfl
    exact h.first
  · exact fun hbefore => h.unique ⟨hf, .inl rfl, hbefore⟩

end FirstUser

end

end Schema
end UILayout
