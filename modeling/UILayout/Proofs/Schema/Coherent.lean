import UILayout.Proofs.Schema.Named
import UILayout.Proofs.Schema.Provenance
import UILayout.Proofs.Schema.Users

/-!
# UILayout.Proofs.Schema.Coherent

Numbers and names in a loaded schema. While a schema is compiled, a name stands for its place among the
names of the definitions, and there need not be an entry yet: types are compiled after their bases, and
slots and properties as they come. Still every entry ends up at the place of its name, and no number that
is kept anywhere is too large for its table.

* `indexed_of_names`: tables in which names stand where the definitions have them.
* `names_of_compileComplex`: complex types, none of which is lost.
* `steps_origins`, `below_of_compileClasses`, `below_of_compileFrameTypes`: the numbers that types, classes
  and frame types keep.
* `coherent_of_ofDefinition`: all tables.
-/

namespace UILayout
namespace Schema

/-! ## Names -/

/-- A table in which the entry of a name has the number that compiling takes for it, which is the place of
the name among the names of the definitions. -/
structure Indexed {α : Type} (names : List String) (table : Array α) (nameOf : α → String)
    (find? : String → Option Nat) : Prop where
  size : table.size = names.length
  entry : ∀ {name : String} {id : Nat}, find? name = some id ↔ ∃ e, table[id]? = some e ∧ nameOf e = name
  lookup_iff : ∀ {noun : Noun} {name source : String} {id : Nat},
    lookup noun names name source = .ok id ↔ find? name = some id

theorem indexed_of_names {α : Type} {names : List String} {table : Array α} {nameOf : α → String}
    (hnames : table.toList.map nameOf = names) (hnodup : names.Nodup) :
    Indexed names table nameOf fun name => table.findIdx? (nameOf · = name) := by
  have hentry : ∀ {name : String} {id : Nat}, table.findIdx? (nameOf · = name) = some id ↔
      ∃ e, table[id]? = some e ∧ nameOf e = name := findIdx?_name_eq_some_iff (hnames ▸ hnodup)
  refine ⟨by rw [← hnames, List.length_map, Array.length_toList], hentry,
    fun {noun name source id} => ?_⟩
  have hget : names[id]? = some name ↔ ∃ e, table[id]? = some e ∧ nameOf e = name := by
    rw [← hnames, List.getElem?_map, Array.getElem?_toList, Option.map_eq_some_iff]
  rw [hentry, ← hget]
  exact ⟨getElem?_of_lookup, lookup_of_getElem? noun source hnodup⟩

theorem map_eq_map_of_forall₂ {α β : Type} {R : α → β → Prop} {f : α → String} {g : β → String}
    {as : List α} {bs : List β} (h : List.Forall₂ R as bs) (hname : ∀ a b, R a b → g b = f a) :
    bs.map g = as.map f := by
  induction h with
  | nil => rfl
  | cons hab _ ih => rw [List.map_cons, List.map_cons, hname _ _ hab, ih]

theorem name_of_compileSimple {names : List String} {d : SimpleTypeDef} {t : SimpleType}
    (h : compileSimple names d = .ok t) : t.name = d.name := by
  unfold compileSimple at h
  obtain ⟨patterns, -, h⟩ := exists_of_bind_eq_ok h
  obtain ⟨union, -, h⟩ := exists_of_bind_eq_ok h
  split at h
  · cases h
  · cases h
    rfl

theorem names_of_compileSimples {defs : List SimpleTypeDef} {types : List SimpleType}
    (h : compileSimples defs = .ok types) :
    types.map (·.name) = defs.map (·.name) ∧ (defs.map (·.name)).Nodup := by
  unfold compileSimples at h
  obtain ⟨⟨⟩, hnames, h⟩ := exists_of_bind_eq_ok h
  exact ⟨map_eq_map_of_forall₂ (forall₂_of_mapM h) fun _ _ => name_of_compileSimple,
    (nodup_of_checkNames hnames).1⟩

/-- Every complex type stands at the place of its definition, though it may have been compiled long before
or after those around it. -/
theorem names_of_compileComplex {simple : List String} {defs : List ComplexTypeDef}
    {compiled : Array ComplexType × Array Slot} (h : compileComplex simple defs = .ok compiled) :
    compiled.1.toList.map (·.name) = defs.map (·.name) := by
  obtain ⟨flat, ⟨first, hfirst⟩, -, hsize, htypes⟩ :=
    (steps_numbered _ _).compileComplex ⟨fun _ => 0, nofun, nofun⟩ h
  refine List.ext_getElem? fun id => ?_
  rw [List.getElem?_map, List.getElem?_map, Array.getElem?_toList]
  by_cases hid : id < defs.length
  · have ht := Array.getElem?_eq_getElem (hsize.symm ▸ hid : id < compiled.1.size)
    have hd := List.getElem?_eq_getElem hid
    rw [ht, hd, Option.map_some, Option.map_some, (hfirst.placed (htypes id ▸ ht) hd).name]
  · rw [Array.getElem?_eq_none (by omega), List.getElem?_eq_none (by omega)]
    rfl

theorem ClassTables.Of.names {names : List String} {defs : List FrameClassDef} {tables : ClassTables}
    (h : tables.Of names defs) : tables.classes.toList.map (·.name) = defs.map (·.name) := by
  refine List.ext_getElem? fun id => ?_
  rw [List.getElem?_map, List.getElem?_map, Array.getElem?_toList]
  by_cases hid : id < defs.length
  · obtain ⟨first, c, hc, hgives⟩ := h.classes (List.getElem?_eq_getElem hid)
    rw [hc, List.getElem?_eq_getElem hid, Option.map_some, Option.map_some, hgives.name]
  · have hsize := h.size
    rw [Array.getElem?_eq_none (by omega), List.getElem?_eq_none (by omega)]
    rfl

/-! ## Where complex types have their parts from -/

/-- The types that a type names as bases, and those that it has attributes and slots from. -/
def ComplexType.origins (t : ComplexType) : List ComplexTypeId :=
  t.bases.values ++ t.inheritedAttributes.values ++ t.inheritedSlots.values

section

variable {names : Names} {owner : String} {t t' base : ComplexType}

theorem ComplexType.mem_origins {id : ComplexTypeId} : id ∈ t.origins ↔
    id ∈ t.bases.values ∨ id ∈ t.inheritedAttributes.values ∨ id ∈ t.inheritedSlots.values := by
  rw [origins, List.mem_append, List.mem_append, or_assoc]

/-- What comes from a base comes from the base itself, or from where the base has it from. -/
theorem ComplexType.mem_origins_inherit {id other : ComplexTypeId}
    (h : other ∈ (t.inherit id base).origins) : other ∈ t.origins ∨ other ∈ base.origins ∨ other = id := by
  have hfrom : ∀ {m : NameMap ComplexTypeId} {name : String}, m.values ⊆ base.origins →
      (m.get? name).getD id ∈ base.origins ∨ (m.get? name).getD id = id := by
    intro m name hsub
    cases hget : m.get? name with
    | none => exact .inr rfl
    | some origin => exact .inl (hsub (OrderedMap.mem_values_of_get? hget))
  rw [mem_origins] at h ⊢
  rcases h with h | h | h
  · rcases List.mem_cons.1 (OrderedMap.values_put_subset _ _ _ h) with rfl | h
    · exact .inr (.inr rfl)
    · exact .inl (.inl h)
  · rcases List.mem_append.1 (OrderedMap.values_foldl_put_subset _ _ _ _ h) with h | h
    · obtain ⟨name, -, rfl⟩ := List.mem_map.1 h
      exact .inr (hfrom fun _ hx => mem_origins.2 (.inr (.inl hx)))
    · exact .inl (.inr (.inl h))
  · rcases List.mem_append.1 (OrderedMap.values_foldl_put_subset _ _ _ _ h) with h | h
    · obtain ⟨name, -, rfl⟩ := List.mem_map.1 h
      exact .inr (hfrom fun _ hx => mem_origins.2 (.inr (.inr hx)))
    · exact .inl (.inr (.inr h))

theorem origins_addAttribute {d : AttributeDef} (h : addAttribute names owner t d = .ok t') :
    t'.origins ⊆ t.origins := by
  obtain ⟨type, -, h⟩ := exists_of_bind_eq_ok h
  cases h
  intro id hid
  rw [ComplexType.mem_origins] at hid ⊢
  exact hid.imp_right (.imp_left fun hid => OrderedMap.values_erase_subset _ _ hid)

theorem origins_addWildcard {d : WildcardDef} (h : addWildcard names owner t d = .ok t') :
    t'.origins = t.origins := by
  obtain ⟨key, -, h⟩ := exists_of_bind_eq_ok h
  obtain ⟨value, -, h⟩ := exists_of_bind_eq_ok h
  cases h
  rfl

theorem origins_addSlot {st st' : ComplexType × Array Slot} {d : SlotDef}
    (h : addSlot names owner st d = .ok st') : st'.1.origins ⊆ st.1.origins := by
  obtain ⟨alternates, -, h⟩ := exists_of_bind_eq_ok h
  obtain ⟨type, -, h⟩ := exists_of_bind_eq_ok h
  cases h
  intro id hid
  rw [ComplexType.mem_origins] at hid ⊢
  exact hid.imp_right (.imp_right fun hid => OrderedMap.values_erase_subset _ _ hid)

/-- What a definition says itself comes from nowhere else. -/
theorem origins_addOwn {d : ComplexTypeDef} {slots : Array Slot} {st : ComplexType × Array Slot}
    (h : addOwn names d t slots = .ok st) : st.1.origins ⊆ t.origins := by
  obtain ⟨t₁, ht₁, h⟩ := exists_of_bind_eq_ok h
  obtain ⟨t₂, ht₂, h⟩ := exists_of_bind_eq_ok h
  have hattributes := foldlM_induct (P := fun _ u => u.origins ⊆ t.origins) ht₁
    (List.Subset.refl _) fun _ _ _ _ hu hadd => List.Subset.trans (origins_addAttribute hadd) hu
  have hwildcards := foldlM_induct (P := fun _ u => u.origins ⊆ t.origins) ht₂ hattributes
    fun _ _ _ _ hu hadd => origins_addWildcard hadd ▸ hu
  exact foldlM_induct (P := fun _ st => st.1.origins ⊆ t.origins) h hwildcards
    fun _ _ _ _ hu hadd => List.Subset.trans (origins_addSlot hadd) hu

end

/-- All origins that have been noted so far are numbers of definitions. -/
theorem steps_origins (names : Names) (defs : List ComplexTypeDef) :
    Steps names defs (Flat.All fun t => ∀ id ∈ t.origins, id < names.complex.length)
      fun _ _ _ t => ∀ id ∈ t.origins, id < names.complex.length where
  bare _ _ := nofun
  leads ht _ := ht
  inherit hflat ht _ _ hlookup hbase := by
    intro id hid
    rcases ComplexType.mem_origins_inherit hid with hid | hid | rfl
    · exact ht id hid
    · exact hflat _ _ hbase id hid
    · exact lt_of_lookup hlookup
  own hflat ht _ _ _ hadd := by
    intro j u hj
    rw [Flat.type?_cons] at hj
    split at hj
    · cases hj
      exact fun id hid => ht id (origins_addOwn hadd hid)
    · exact hflat j u hj

theorem origins_of_compileComplex {simple : List String} {defs : List ComplexTypeDef}
    {compiled : Array ComplexType × Array Slot} (h : compileComplex simple defs = .ok compiled) :
    ∀ t ∈ compiled.1, ∀ id ∈ t.origins, id < compiled.1.size := by
  obtain ⟨flat, hall, -, hsize, htypes⟩ := (steps_origins _ defs).compileComplex nofun h
  intro t ht
  obtain ⟨i, hi⟩ := Array.mem_iff_getElem?.1 ht
  have horigins := hall i t (htypes i ▸ hi)
  rwa [List.length_map, ← hsize] at horigins

/-! ## Classes and frame types -/

/-- The numbers that classes and properties keep lie below those of complex types and of slots, and among
their own. -/
structure ClassTables.Below (complex slots : Nat) (tables : ClassTables) : Prop where
  types : ∀ c ∈ tables.classes, c.type < complex
  own : ∀ c ∈ tables.classes, ∀ id ∈ c.properties.values, id < tables.properties.size
  properties : ∀ p ∈ tables.properties, p.slot < slots ∧ p.frameClass < tables.classes.size

theorem below_addProperties {type : ComplexType} {owner : String} {id : FrameClassId} {slots : Nat}
    {decls : List PropertyDef} {st st' : Array Property × NameMap PropertyId}
    (hslots : ∀ slot ∈ type.slots.values, slot < slots)
    (h : decls.foldlM (addProperty type owner id) st = .ok st') :
    st.1.size ≤ st'.1.size ∧
      (∀ p ∈ st'.1, p ∈ st.1 ∨ p.slot < slots ∧ p.frameClass = id) ∧
      ∀ property ∈ st'.2.values, property ∈ st.2.values ∨ property < st'.1.size := by
  refine foldlM_induct (P := fun _ (st' : Array Property × NameMap PropertyId) =>
    st.1.size ≤ st'.1.size ∧
      (∀ p ∈ st'.1, p ∈ st.1 ∨ p.slot < slots ∧ p.frameClass = id) ∧
      ∀ property ∈ st'.2.values, property ∈ st.2.values ∨ property < st'.1.size) h
    ⟨Nat.le_refl _, fun _ => .inl, fun _ => .inl⟩ ?_
  rintro _ d u u' ⟨hsize, hproperties, hvalues⟩ hadd
  unfold addProperty at hadd
  split at hadd
  · cases hadd
  · rename_i slot hslot
    cases hadd
    refine ⟨by simpa using Nat.le_succ_of_le hsize, fun p hp => ?_, fun property hproperty => ?_⟩
    · rcases Array.mem_push.1 hp with hp | rfl
      · exact hproperties p hp
      · exact .inr ⟨hslots slot (OrderedMap.mem_values_of_get? hslot), rfl⟩
    · rw [Array.size_push]
      rcases List.mem_cons.1 (OrderedMap.values_put_subset _ _ _ hproperty) with rfl | hproperty
      · exact .inr (Nat.lt_succ_self _)
      · exact (hvalues property hproperty).imp_right Nat.lt_succ_of_lt

section

variable {classNames typeNames : List String} {types : Array ComplexType} {slots : Nat}

/-- A class comes behind the others, and its properties behind theirs. -/
theorem ClassTables.Below.compileClass {st st' : ClassTables} {d : FrameClassDef}
    (h : st.Below typeNames.length slots)
    (hslots : ∀ t ∈ types, ∀ slot ∈ t.slots.values, slot < slots)
    (hstep : Schema.compileClass classNames typeNames types st d = .ok st') :
    st'.Below typeNames.length slots := by
  unfold Schema.compileClass at hstep
  dsimp only at hstep
  -- whether a parent is named makes no difference here
  split at hstep
  all_goals
    obtain ⟨parent?, -, hstep⟩ := exists_of_bind_eq_ok hstep
    obtain ⟨typeId, htype, hstep⟩ := exists_of_bind_eq_ok hstep
    split at hstep
    · cases hstep
    · rename_i type hget
      obtain ⟨added, hadd, hstep⟩ := exists_of_bind_eq_ok hstep
      cases hstep
      obtain ⟨hsize, hproperties, hvalues⟩ :=
        below_addProperties (hslots type (Array.mem_of_getElem? hget)) hadd
      refine ⟨fun c hc => ?_, fun c hc property hproperty => ?_, fun p hp => ?_⟩
      · rcases Array.mem_push.1 hc with hc | rfl
        · exact h.types c hc
        · exact lt_of_lookup htype
      · rcases Array.mem_push.1 hc with hc | rfl
        · exact Nat.lt_of_lt_of_le (h.own c hc property hproperty) hsize
        · exact (hvalues property hproperty).resolve_left List.not_mem_nil
      · rw [Array.size_push]
        rcases hproperties p hp with hp | ⟨hslot, hclass⟩
        · exact ⟨(h.properties p hp).1, Nat.lt_succ_of_lt (h.properties p hp).2⟩
        · exact ⟨hslot, hclass ▸ Nat.lt_succ_self _⟩

theorem below_of_compileClasses {defs : List FrameClassDef} {tables : ClassTables}
    (hslots : ∀ t ∈ types, ∀ slot ∈ t.slots.values, slot < slots)
    (h : compileClasses typeNames types defs = .ok tables) : tables.Below typeNames.length slots := by
  obtain ⟨-, -, h⟩ := exists_of_bind_eq_ok h
  obtain ⟨compiled, hcompiled, h⟩ := exists_of_bind_eq_ok h
  obtain ⟨-, -, h⟩ := exists_of_bind_eq_ok h
  cases h
  exact foldlM_induct (P := fun _ st => st.Below typeNames.length slots) hcompiled ⟨nofun, nofun, nofun⟩
    fun _ _ _ _ hst hstep => hst.compileClass hslots hstep

theorem custom_of_compileFrameType {tables : ClassTables} {done done' : Array FrameType}
    {d : FrameTypeDef} (h : compileFrameType classNames typeNames tables done d = .ok done') :
    ∃ f, done' = done.push f ∧ ∀ custom, f.customDesc? = some custom → custom < typeNames.length := by
  obtain ⟨primary, -, h⟩ := exists_of_bind_eq_ok h
  obtain ⟨type, -, h⟩ := exists_of_bind_eq_ok h
  dsimp only at h
  split at h
  · obtain ⟨custom?, hcustom, h⟩ := exists_of_bind_eq_ok h
    obtain ⟨id, hid, rfl⟩ := exists_of_map_eq_ok hcustom
    obtain ⟨properties, -, h⟩ := exists_of_bind_eq_ok h
    split at h
    · cases h
    · cases h
      refine ⟨_, rfl, ?_⟩
      rintro custom ⟨⟩
      exact lt_of_lookup hid
  · obtain ⟨custom?, hcustom, h⟩ := exists_of_bind_eq_ok h
    cases hcustom
    obtain ⟨properties, -, h⟩ := exists_of_bind_eq_ok h
    split at h
    · cases h
    · cases h
      exact ⟨_, rfl, nofun⟩

/-- Frame types have properties of classes only, and custom descs of types that have names. -/
theorem below_of_compileFrameTypes {complex : Nat} {tables : ClassTables} {defs : List FrameTypeDef}
    {frameTypes : Array FrameType} (htables : tables.Below complex slots)
    (h : compileFrameTypes classNames typeNames tables defs = .ok frameTypes) :
    ∀ f ∈ frameTypes, (∀ custom, f.customDesc? = some custom → custom < typeNames.length) ∧
      ∀ id ∈ f.properties.values, id < tables.properties.size := by
  have hcustom := foldlM_induct (P := fun _ (done : Array FrameType) => ∀ f ∈ done,
    ∀ custom, f.customDesc? = some custom → custom < typeNames.length) h nofun (by
      intro _ d done done' hdone hstep
      obtain ⟨f, rfl, hf⟩ := custom_of_compileFrameType hstep
      intro g hg
      rcases Array.mem_push.1 hg with hg | rfl
      · exact hdone g hg
      · exact hf)
  intro f hf
  refine ⟨hcustom f hf, fun id hid => ?_⟩
  obtain ⟨i, hi⟩ := Array.mem_iff_getElem?.1 hf
  rw [← Array.getElem?_toList] at hi
  obtain ⟨d, -, hgives⟩ := exists_getElem?_of_forall₂ (of_compileFrameTypes h).flip hi
  have hentries := (entries_mergeAll hgives.properties).1
  rw [OrderedMap.values, hentries] at hid
  obtain ⟨entry, hentry, rfl⟩ := List.mem_map.1 hid
  obtain ⟨c, hc, hentry⟩ := List.mem_flatMap.1 ((List.mem_append.1 hentry).resolve_left List.not_mem_nil)
  obtain ⟨j, -, hj⟩ := List.mem_filterMap.1 hc
  exact htables.own c (Array.mem_of_getElem? hj) _ (List.mem_map_of_mem hentry)

end

/-! ## All tables -/

theorem lt_of_mem_propertiesByName {s : Schema} {ids : List PropertyId}
    (h : ids ∈ s.propertiesByName.values) : ∀ id ∈ ids, id < s.properties.size := by
  revert ids
  refine List.foldlRecOn s.properties.toList.zipIdx _
    (motive := fun m : NameMap (List PropertyId) => ∀ {ids : List PropertyId}, ids ∈ m.values →
      ∀ id ∈ ids, id < s.properties.size) (fun h => absurd h List.not_mem_nil) ?_
  intro m hm p hp ids hids id hid
  have hp : p.2 < s.properties.size := (Array.getElem?_eq_some_iff.1
    (Array.getElem?_toList.symm.trans (List.mk_mem_zipIdx_iff_getElem?.1 hp))).1
  rcases List.mem_cons.1 (OrderedMap.values_put_subset _ _ _ hids) with rfl | hold
  · -- the property has been added to those of its name
    rcases List.mem_append.1 hid with hid | hid
    · cases hget : m.get? p.1.name with
      | none =>
        rw [hget] at hid
        cases hid
      | some old =>
        rw [hget] at hid
        exact hm (OrderedMap.mem_values_of_get? hget) id hid
    · exact List.mem_singleton.1 hid ▸ hp
  · exact hm hold id hid

/-- No number that is kept in a schema is too large for the table that it is for. -/
structure InRange (s : Schema) : Prop extends s.Closed where
  origins : ∀ t ∈ s.complexTypes, ∀ id ∈ t.origins, id < s.complexTypes.size
  classes : ∀ c ∈ s.classes, c.type < s.complexTypes.size ∧
    (∀ parent, c.parent? = some parent → parent < s.classes.size) ∧
    ∀ id ∈ c.properties.values, id < s.properties.size
  properties : ∀ p ∈ s.properties, p.slot < s.slots.size ∧ p.frameClass < s.classes.size
  customDescs : ∀ f ∈ s.frameTypes,
    (∀ custom, f.customDesc? = some custom → custom < s.complexTypes.size) ∧
    ∀ id ∈ f.properties.values, id < s.properties.size
  propertiesByName : ∀ ids ∈ s.propertiesByName.values, ∀ id ∈ ids, id < s.properties.size
  frameTypeOf : ∀ type id, s.frameTypeOf? type = some id → id < s.frameTypes.size
  propertyOfSlot : ∀ slot id, s.propertyOfSlot? slot = some id → id < s.properties.size

/-- The tables of a schema have their entries at the places of the names of a definition, and keep no
numbers but those of entries. -/
structure Coherent (d : Definition) (s : Schema) : Prop where
  simpleTypes : Indexed (d.simpleTypes.map (·.name)) s.simpleTypes (·.name) s.simpleTypeNamed?
  complexTypes : Indexed (d.complexTypes.map (·.name)) s.complexTypes (·.name) s.complexTypeNamed?
  classes : Indexed (d.frameClasses.map (·.name)) s.classes (·.name) s.classNamed?
  frameTypes : Indexed (d.frameTypes.map (·.name)) s.frameTypes (·.name) s.frameTypeNamed?
  inRange : s.InRange

theorem inRange_of_ofDefinition {d : Definition} {s : Schema} (h : ofDefinition d = .ok s) :
    s.InRange := by
  have hclosed := closed_of_ofDefinition h
  obtain ⟨simple, ⟨types, slots⟩, rootType, tables, frameTypes, hsimple, hcomplex, hroot, htables,
    hframes, rfl⟩ := exists_of_ofDefinition h
  obtain ⟨hcount, htypes, -⟩ := complex_of_compileComplex hcomplex
  obtain ⟨hclasses, hparents⟩ := classes_of_compileClasses htables
  have hcomplexNames : (d.complexTypes.map (·.name)).length = types.size := by
    rw [List.length_map, hcount]
  have hbelow := below_of_compileClasses (fun t ht => (htypes t ht).slots) htables
  have hframeTypes := below_of_compileFrameTypes hbelow hframes
  rw [hcomplexNames] at hbelow hframeTypes
  refine ⟨hclosed, origins_of_compileComplex hcomplex, fun c hc => ⟨hbelow.types c hc, ?_,
    hbelow.own c hc⟩, fun p hp => ⟨?_, (hbelow.properties p hp).2⟩, hframeTypes,
    fun _ hids => lt_of_mem_propertiesByName hids, fun type id hid => ?_, fun slot id hid => ?_⟩
  · rw [hclasses]
    exact hparents c hc
  · rw [Array.size_push]
    exact Nat.lt_succ_of_lt (hbelow.properties p hp).1
  · exact (Array.findIdx?_eq_some_iff_getElem.1 hid).1
  · exact (Array.findIdx?_eq_some_iff_getElem.1 hid).1

/-- A schema that has been compiled from a definition is coherent. Looking up the name of a simple or
complex type, of a class or of a frame type gives the number of the entry that has this name, which is what
the name has stood for since before there was an entry; and all numbers that entries keep are numbers of
entries. -/
theorem coherent_of_ofDefinition {d : Definition} {s : Schema} (h : ofDefinition d = .ok s) :
    Coherent d s := by
  have hrange := inRange_of_ofDefinition h
  have hframeNames := nodup_names_of_ofDefinition h
  obtain ⟨simple, compiled, rootType, tables, frameTypes, hsimple, hcomplex, hroot, htables, hframes,
    rfl⟩ := exists_of_ofDefinition h
  obtain ⟨hsimpleNames, hsimpleNodup⟩ := names_of_compileSimples hsimple
  obtain ⟨hclassNodup, hof, -⟩ := lineage_of_compileClasses htables
  have hframeTypes : frameTypes.toList.map (·.name) = d.frameTypes.map (·.name) :=
    map_eq_map_of_forall₂ (of_compileFrameTypes hframes) fun _ _ hgives => hgives.name
  exact ⟨indexed_of_names hsimpleNames hsimpleNodup,
    indexed_of_names (names_of_compileComplex hcomplex) (nodup_of_compileComplex hcomplex),
    indexed_of_names hof.names hclassNodup, indexed_of_names hframeTypes (hframeTypes ▸ hframeNames),
    hrange⟩

/-- A button, which is a frame. Buttons are defined before frames, and compiled after them. -/
def buttonFirst : Definition :=
  let flags : TypeFlags := ⟨false, false, false⟩
  { root := ⟨"Desc", "CButton"⟩
    simpleTypes := [⟨"string", .default, .string, true, none, [], [], [], none⟩]
    complexTypes := [
      ⟨"CButton", ["CFrame"], flags, [], [⟨"string", "string"⟩],
        [⟨"Text", .frameProperty, "CButton", .ofList [("frame", "CFrame")], none, none⟩], none, none⟩,
      ⟨"CFrame", [], flags, [⟨"name", "string", true, none, none, none⟩], [],
        [⟨"Visible", .frameProperty, "CFrame", .empty, none, none⟩], none, none⟩]
    frameClasses := [⟨"CButton", some "CFrame", "CButton", [⟨"Text", false, false, none⟩]⟩,
      ⟨"CFrame", none, "CFrame", [⟨"Visible", false, false, none⟩]⟩]
    frameTypes := [⟨"Button", "CButton", "CButton", false, some "CFrame"⟩] }

/-- The slots of frames come first, but frames are the second type. -/
theorem coherent_buttonFirst : ∃ s, ofDefinition buttonFirst = .ok s ∧
    s.slots.toList.map (·.name) = ["Visible", "Text", "Desc"] ∧ s.complexTypeNamed? "CFrame" = some 1 ∧
    Coherent buttonFirst s := by
  have hrun : ((ofDefinition buttonFirst).toOption.map fun s =>
      (s.slots.toList.map (·.name), s.complexTypeNamed? "CFrame")) =
        some (["Visible", "Text", "Desc"], some 1) := by
    cbv
  obtain ⟨s, hs, hfound⟩ := Option.map_eq_some_iff.1 hrun
  obtain ⟨hslots, hframe⟩ := Prod.mk.inj hfound
  exact ⟨s, ok_of_toOption hs, hslots, hframe, coherent_of_ofDefinition (ok_of_toOption hs)⟩

end Schema
end UILayout
