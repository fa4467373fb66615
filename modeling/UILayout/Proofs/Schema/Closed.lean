import UILayout.Proofs.OrderedMap
import UILayout.Proofs.Schema.Compiling

/-!
# UILayout.Proofs.Schema.Closed

In a schema that has been loaded every number that an entry holds is the number of an entry. Names are
looked up among all names of their table, so a number is never too large for the table that the names are
for; and compiling goes on until the table has an entry for each name.

* `steps_below`: compiling a type leaves all types and slots closed.
* `closed_of_ofDefinition`: loaded schemas are closed.
-/

namespace UILayout

/-- All numbers that entries of a schema hold are numbers of entries. -/
structure Schema.Closed (s : Schema) : Prop where
  unions : ∀ t ∈ s.simpleTypes, ∀ m ∈ t.union, m < s.simpleTypes.size
  attributes : ∀ t ∈ s.complexTypes, ∀ a ∈ t.attributes.values, a.type < s.simpleTypes.size
  wildcards : ∀ t ∈ s.complexTypes, ∀ rule ∈ t.wildcards,
    rule.key < s.simpleTypes.size ∧ rule.value < s.simpleTypes.size
  slots : ∀ t ∈ s.complexTypes, ∀ id ∈ t.slots.values, id < s.slots.size
  types : ∀ d ∈ s.slots, d.type < s.complexTypes.size ∧
    ∀ id ∈ d.alternates.values, id < s.complexTypes.size
  frameTypes : ∀ f ∈ s.frameTypes, f.type < s.complexTypes.size ∧ ∀ c ∈ f.classes, c < s.classes.size
  root : s.root < s.slots.size

namespace Schema

/-! ## Simple types -/

theorem union_of_compileSimple {names : List String} {d : SimpleTypeDef} {t : SimpleType}
    (h : compileSimple names d = .ok t) : ∀ m ∈ t.union, m < names.length := by
  unfold compileSimple at h
  obtain ⟨patterns, -, h⟩ := exists_of_bind_eq_ok h
  obtain ⟨union, hunion, h⟩ := exists_of_bind_eq_ok h
  split at h
  · cases h
  · cases h
    intro m hm
    obtain ⟨member, -, hmember⟩ := (mapM_spec hunion).2 m hm
    exact lt_of_lookup hmember

theorem simples_of_compileSimples {defs : List SimpleTypeDef} {types : List SimpleType}
    (h : compileSimples defs = .ok types) :
    types.length = defs.length ∧ ∀ t ∈ types, ∀ m ∈ t.union, m < types.length := by
  unfold compileSimples at h
  obtain ⟨-, -, h⟩ := exists_of_bind_eq_ok h
  obtain ⟨hlength, hall⟩ := mapM_spec h
  refine ⟨hlength, fun t ht => ?_⟩
  obtain ⟨d, -, hd⟩ := hall t ht
  have hunion := union_of_compileSimple hd
  rwa [List.length_map, ← hlength] at hunion

/-! ## Complex types -/

/-- The numbers that a type holds lie below the numbers of simple types and of slots. -/
structure ComplexType.Below (simple slots : Nat) (t : ComplexType) : Prop where
  attributes : ∀ a ∈ t.attributes.values, a.type < simple
  wildcards : ∀ rule ∈ t.wildcards, rule.key < simple ∧ rule.value < simple
  slots : ∀ id ∈ t.slots.values, id < slots

/-- The numbers of types that a slot holds lie below the number of types. -/
structure Slot.Below (complex : Nat) (d : Slot) : Prop where
  type : d.type < complex
  alternates : ∀ id ∈ d.alternates.values, id < complex

section

variable {simple slots slots' : Nat} {t t' base : ComplexType} {names : Names} {owner : String}

theorem ComplexType.Below.mono (h : t.Below simple slots) (hle : slots ≤ slots') :
    t.Below simple slots' :=
  ⟨h.attributes, h.wildcards, fun id hid => Nat.lt_of_lt_of_le (h.slots id hid) hle⟩

theorem ComplexType.below_bare (d : ComplexTypeDef) : (bare d).Below simple slots :=
  ⟨nofun, nofun, nofun⟩

theorem ComplexType.Below.inherit (h : t.Below simple slots) (hbase : base.Below simple slots)
    (id : ComplexTypeId) : (t.inherit id base).Below simple slots := by
  refine ⟨fun a ha => ?_, fun rule hrule => ?_, fun slot hslot => ?_⟩
  · rcases List.mem_append.1 (OrderedMap.values_foldl_put_subset _ _ _ _ ha) with ha | ha
    · exact hbase.attributes a ha
    · exact h.attributes a ha
  · rcases List.mem_append.1 hrule with hrule | hrule
    · exact h.wildcards rule hrule
    · exact hbase.wildcards rule hrule
  · rcases List.mem_append.1 (OrderedMap.values_foldl_put_subset _ _ _ _ hslot) with hslot | hslot
    · exact hbase.slots slot hslot
    · exact h.slots slot hslot

theorem ComplexType.Below.addAttribute {d : AttributeDef} (h : t.Below names.simple.length slots)
    (hadd : Schema.addAttribute names owner t d = .ok t') : t'.Below names.simple.length slots := by
  obtain ⟨type, htype, hadd⟩ := exists_of_bind_eq_ok hadd
  cases hadd
  refine ⟨fun a ha => ?_, h.wildcards, h.slots⟩
  rcases List.mem_cons.1 (OrderedMap.values_put_subset _ _ _ ha) with rfl | ha
  · exact lt_of_lookup htype
  · exact h.attributes a ha

theorem ComplexType.Below.addWildcard {d : WildcardDef} (h : t.Below names.simple.length slots)
    (hadd : Schema.addWildcard names owner t d = .ok t') : t'.Below names.simple.length slots := by
  obtain ⟨key, hkey, hadd⟩ := exists_of_bind_eq_ok hadd
  obtain ⟨value, hvalue, hadd⟩ := exists_of_bind_eq_ok hadd
  cases hadd
  refine ⟨h.attributes, fun rule hrule => ?_, h.slots⟩
  rcases List.mem_append.1 hrule with hrule | hrule
  · exact h.wildcards rule hrule
  · rw [List.mem_singleton.1 hrule]
    exact ⟨lt_of_lookup hkey, lt_of_lookup hvalue⟩

theorem below_compileAlternates {d : SlotDef} {alternates : List (String × String)}
    {compiled : NameMap ComplexTypeId} (h : compileAlternates names d alternates = .ok compiled) :
    ∀ id ∈ compiled.values, id < names.complex.length := by
  induction alternates generalizing compiled with
  | nil =>
    cases h
    exact nofun
  | cons e rest ih =>
    obtain ⟨id, hid, h⟩ := exists_of_bind_eq_ok h
    obtain ⟨more, hmore, h⟩ := exists_of_bind_eq_ok h
    cases h
    rintro other (_ | ⟨_, hother⟩)
    · exact lt_of_lookup hid
    · exact ih hmore other hother

/-- A type and the slots that are compiled so far, none of which is lost. -/
structure Grown (names : Names) (old : Array Slot) (st : ComplexType × Array Slot) : Prop where
  type : st.1.Below names.simple.length st.2.size
  slots : ∀ d ∈ st.2, d.Below names.complex.length
  size : old.size ≤ st.2.size

theorem Grown.addSlot {old : Array Slot} {st st' : ComplexType × Array Slot} {d : SlotDef}
    (h : Grown names old st) (hadd : Schema.addSlot names owner st d = .ok st') :
    Grown names old st' := by
  obtain ⟨alternates, halternates, hadd⟩ := exists_of_bind_eq_ok hadd
  obtain ⟨type, htype, hadd⟩ := exists_of_bind_eq_ok hadd
  cases hadd
  refine ⟨⟨h.type.attributes, h.type.wildcards, fun id hid => ?_⟩, fun slot hslot => ?_, ?_⟩
  · rw [Array.size_push]
    rcases List.mem_cons.1 (OrderedMap.values_put_subset _ _ _ hid) with rfl | hid
    · exact Nat.lt_succ_self _
    · exact Nat.lt_succ_of_lt (h.type.slots id hid)
  · rcases Array.mem_push.1 hslot with hslot | rfl
    · exact h.slots slot hslot
    · exact ⟨lt_of_lookup htype, below_compileAlternates halternates⟩
  · rw [Array.size_push]
    exact Nat.le_succ_of_le h.size

theorem grown_addOwn {d : ComplexTypeDef} {old : Array Slot} {st : ComplexType × Array Slot}
    (ht : t.Below names.simple.length old.size) (hold : ∀ d ∈ old, d.Below names.complex.length)
    (h : addOwn names d t old = .ok st) : Grown names old st := by
  obtain ⟨t₁, ht₁, h⟩ := exists_of_bind_eq_ok h
  obtain ⟨t₂, ht₂, h⟩ := exists_of_bind_eq_ok h
  have hattributes := foldlM_induct (P := fun _ t => t.Below names.simple.length old.size) ht₁ ht
    fun _ _ _ _ ht hadd => ht.addAttribute hadd
  have hwildcards := foldlM_induct (P := fun _ t => t.Below names.simple.length old.size) ht₂
    hattributes fun _ _ _ _ ht hadd => ht.addWildcard hadd
  exact foldlM_induct (P := fun _ st => Grown names old st) h ⟨hwildcards, hold, Nat.le_refl _⟩
    fun _ _ _ _ hgrown hadd => hgrown.addSlot hadd

end

/-- All types and slots that are compiled so far hold no number that is too large. -/
structure Flat.Below (names : Names) (flat : Flat) : Prop where
  types : ∀ {id : ComplexTypeId} {t : ComplexType}, flat.type? id = some t →
    t.Below names.simple.length flat.slots.size
  slots : ∀ d ∈ flat.slots, d.Below names.complex.length

/-- A type that has been compiled is put to those that are there, with the slots that it has added. -/
theorem Flat.Below.put {names : Names} {flat : Flat} (h : flat.Below names)
    {st : ComplexType × Array Slot} (hgrown : Grown names flat.slots st) (id : ComplexTypeId) :
    (Flat.mk ((id, st.1) :: flat.types) st.2).Below names := by
  refine ⟨fun {j t} hj => ?_, hgrown.slots⟩
  rw [Flat.type?_cons] at hj
  split at hj
  · cases hj
    exact hgrown.type
  · exact (h.types hj).mono hgrown.size

/-- Compiling a type, and taking over its bases, keeps numbers small. -/
theorem steps_below (names : Names) (defs : List ComplexTypeDef) :
    Steps names defs (Flat.Below names) fun flat _ _ t =>
      t.Below names.simple.length flat.slots.size where
  bare _ _ := ComplexType.below_bare _
  leads ht hleads := ht.mono hleads.size_le
  inherit hflat ht _ _ _ hbase := ht.inherit (hflat.types hbase) _
  own hflat ht _ _ _ hadd := hflat.put (grown_addOwn ht hflat.slots hadd) _

/-- Every definition of a complex type has a type, at its place. -/
theorem complex_of_compileComplex {simple : List String} {defs : List ComplexTypeDef}
    {compiled : Array ComplexType × Array Slot} (h : compileComplex simple defs = .ok compiled) :
    compiled.1.size = defs.length ∧
      (∀ t ∈ compiled.1, t.Below simple.length compiled.2.size) ∧
      ∀ d ∈ compiled.2, d.Below defs.length := by
  obtain ⟨flat, hbelow, hslots, hsize, htypes⟩ := (steps_below _ defs).compileComplex ⟨nofun, nofun⟩ h
  refine ⟨hsize, fun t ht => ?_, fun d hd => ?_⟩
  · obtain ⟨id, hid⟩ := Array.mem_iff_getElem?.1 ht
    rw [htypes] at hid
    exact hslots ▸ hbelow.types hid
  · have hslot := hbelow.slots d (hslots ▸ hd)
    rwa [List.length_map] at hslot

/-- A type without bases has what its definition says itself. -/
theorem flatten_of_no_bases {names : Names} {defs : List ComplexTypeDef} {free : List Nat} (flat : Flat)
    {id : Nat} {d : ComplexTypeDef} {st : ComplexType × Array Slot} (hd : defs[id]? = some d)
    (hbases : d.bases = []) (hfree : id ∈ free) (hnew : flat.type? id = none)
    (hown : addOwn names d (.bare d) flat.slots = .ok st) :
    flatten names defs free flat id = .ok ⟨(id, st.1) :: flat.types, st.2⟩ := by
  rw [flatten, hnew, hd]
  simp only [dif_pos hfree, hbases]
  rw [inheritAll]
  simp only [hown]

theorem compileComplex_singleton {simple : List String} {d : ComplexTypeDef}
    (st : ComplexType × Array Slot) (hbases : d.bases = [])
    (hown : addOwn ⟨simple, [d.name]⟩ d (.bare d) #[] = .ok st) :
    compileComplex simple [d] = .ok (#[st.1], st.2) := by
  have hflat : [0].foldlM (flatten ⟨simple, [d.name]⟩ [d] [0]) ⟨[], #[]⟩ =
      .ok ⟨[(0, st.1)], st.2⟩ := by
    rw [List.foldlM_cons,
      flatten_of_no_bases ⟨[], #[]⟩ rfl hbases (List.mem_singleton_self 0) rfl hown]
    rfl
  unfold compileComplex
  simp only [List.length_singleton, List.map_cons, List.map_nil, List.range_one]
  rw [hflat]
  rfl

/-! ## Frames -/

/-- A class is put behind the others, with a parent that has a name. -/
theorem push_of_compileClass {classNames typeNames : List String} {types : Array ComplexType}
    {st st' : ClassTables} {d : FrameClassDef}
    (h : compileClass classNames typeNames types st d = .ok st') :
    ∃ c, st'.classes = st.classes.push c ∧
      ∀ parent, c.parent? = some parent → parent < classNames.length := by
  have hlookup : ∀ {name : String} {parent : FrameClassId},
      (lookup .frameClass classNames name d.name).map some = .ok (some parent) →
        parent < classNames.length := by
    intro name parent hmap
    obtain ⟨id, hid, hsome⟩ := exists_of_map_eq_ok hmap
    cases hsome
    exact lt_of_lookup hid
  unfold compileClass at h
  dsimp only at h
  split at h
  all_goals
    obtain ⟨parent?, hparent, h⟩ := exists_of_bind_eq_ok h
    obtain ⟨type, -, h⟩ := exists_of_bind_eq_ok h
    split at h
    · cases h
    · obtain ⟨properties, -, h⟩ := exists_of_bind_eq_ok h
      cases h
      refine ⟨_, rfl, ?_⟩
      rintro parent rfl
      first
        | exact hlookup hparent
        | cases hparent

/-- One class for every definition, with a parent among them. -/
theorem classes_of_compileClasses {typeNames : List String} {types : Array ComplexType}
    {defs : List FrameClassDef} {tables : ClassTables}
    (h : compileClasses typeNames types defs = .ok tables) :
    tables.classes.size = defs.length ∧
      ∀ c ∈ tables.classes, ∀ parent, c.parent? = some parent → parent < defs.length := by
  obtain ⟨-, -, h⟩ := exists_of_bind_eq_ok h
  obtain ⟨compiled, hcompiled, h⟩ := exists_of_bind_eq_ok h
  obtain ⟨-, -, h⟩ := exists_of_bind_eq_ok h
  cases h
  refine foldlM_induct (P := fun passed (tables : ClassTables) =>
    tables.classes.size = passed.length ∧
      ∀ c ∈ tables.classes, ∀ parent, c.parent? = some parent → parent < defs.length) hcompiled
    ⟨rfl, nofun⟩ ?_
  rintro passed d st st' ⟨hsize, hparents⟩ hstep
  obtain ⟨c, hpush, hparent⟩ := push_of_compileClass hstep
  rw [List.length_map] at hparent
  rw [hpush]
  refine ⟨by simp [hsize], fun c' hc' => ?_⟩
  rcases Array.mem_push.1 hc' with hc' | rfl
  · exact hparents c' hc'
  · exact hparent

theorem classChain?_below {classes : Array FrameClass} {count : Nat}
    (hparents : ∀ c ∈ classes, ∀ parent, c.parent? = some parent → parent < count)
    {bound : Nat} {id? : Option FrameClassId} {chain : List FrameClassId}
    (hid : ∀ id, id? = some id → id < count) (h : classChain? classes bound id? = some chain) :
    ∀ c ∈ chain, c < count := by
  fun_induction classChain? classes bound id? generalizing chain with
  | case1 =>
    cases h
    exact nofun
  | case2 => cases h
  | case3 bound id ih =>
    obtain ⟨rest, hrest, rfl⟩ := Option.map_eq_some_iff.1 h
    rintro c (_ | ⟨_, hc⟩)
    · exact hid id rfl
    · refine ih (fun parent hparent => ?_) hrest c hc
      obtain ⟨d, hd, hparent⟩ := Option.bind_eq_some_iff.1 hparent
      exact hparents d (Array.mem_of_getElem? hd) parent hparent

/-- A frame type is put behind the others, with a type and with classes that have names. -/
theorem push_of_compileFrameType {classNames typeNames : List String} {tables : ClassTables}
    {done done' : Array FrameType} {d : FrameTypeDef}
    (hparents : ∀ c ∈ tables.classes, ∀ parent, c.parent? = some parent → parent < classNames.length)
    (h : compileFrameType classNames typeNames tables done d = .ok done') :
    ∃ f, done' = done.push f ∧ f.type < typeNames.length ∧ ∀ c ∈ f.classes, c < classNames.length := by
  obtain ⟨primary, hprimary, h⟩ := exists_of_bind_eq_ok h
  obtain ⟨type, htype, h⟩ := exists_of_bind_eq_ok h
  have hclasses : ∀ c ∈ (classChain? tables.classes (tables.classes.size + 1) (some primary)).getD [],
      c < classNames.length := by
    cases hchain : classChain? tables.classes (tables.classes.size + 1) (some primary) with
    | none => exact nofun
    | some chain =>
      refine classChain?_below hparents ?_ hchain
      rintro id ⟨⟩
      exact lt_of_lookup hprimary
  dsimp only at h
  split at h
  all_goals
    obtain ⟨custom?, -, h⟩ := exists_of_bind_eq_ok h
    obtain ⟨properties, -, h⟩ := exists_of_bind_eq_ok h
    split at h
    · cases h
    · cases h
      exact ⟨_, rfl, lt_of_lookup htype, hclasses⟩

theorem frameTypes_of_compileFrameTypes {classNames typeNames : List String} {tables : ClassTables}
    {defs : List FrameTypeDef} {frameTypes : Array FrameType}
    (hparents : ∀ c ∈ tables.classes, ∀ parent, c.parent? = some parent → parent < classNames.length)
    (h : compileFrameTypes classNames typeNames tables defs = .ok frameTypes) :
    ∀ f ∈ frameTypes, f.type < typeNames.length ∧ ∀ c ∈ f.classes, c < classNames.length := by
  refine foldlM_induct (P := fun _ (done : Array FrameType) => ∀ f ∈ done,
    f.type < typeNames.length ∧ ∀ c ∈ f.classes, c < classNames.length) h nofun ?_
  intro passed d done done' hdone hstep
  obtain ⟨f, rfl, htype, hclasses⟩ := push_of_compileFrameType hparents hstep
  intro g hg
  rcases Array.mem_push.1 hg with hg | rfl
  · exact hdone g hg
  · exact ⟨htype, hclasses⟩

/-- A schema that has been compiled from a definition is closed. -/
theorem closed_of_ofDefinition {d : Definition} {s : Schema} (h : ofDefinition d = .ok s) : s.Closed := by
  obtain ⟨simple, ⟨types, slots⟩, rootType, tables, frameTypes, hsimple, hcomplex, hroot, htables,
    hframes, rfl⟩ := exists_of_ofDefinition h
  obtain ⟨hsize, hunions⟩ := simples_of_compileSimples hsimple
  obtain ⟨hcount, htypes, hslots⟩ := complex_of_compileComplex hcomplex
  obtain ⟨hclasses, hparents⟩ := classes_of_compileClasses htables
  have hnames : (d.frameClasses.map (·.name)).length = tables.classes.size := by
    rw [List.length_map, hclasses]
  have htypeNames : (d.complexTypes.map (·.name)).length = types.size := by
    rw [List.length_map, hcount]
  have hsimpleNames : (d.simpleTypes.map (·.name)).length = simple.length := by
    rw [List.length_map, hsize]
  have hframeTypes := frameTypes_of_compileFrameTypes
    (by rwa [List.length_map] : ∀ c ∈ tables.classes, ∀ parent, c.parent? = some parent →
      parent < (d.frameClasses.map (·.name)).length) hframes
  rw [hnames, htypeNames] at hframeTypes
  rw [hsimpleNames] at htypes
  rw [← hcount] at hslots
  refine ⟨?_, ?_, ?_, ?_, ?_, hframeTypes, ?_⟩
  · intro t ht m hm
    rw [List.size_toArray]
    exact hunions t (List.mem_toArray.1 ht) m hm
  · intro t ht a ha
    rw [List.size_toArray]
    exact (htypes t ht).attributes a ha
  · intro t ht rule hrule
    rw [List.size_toArray]
    exact (htypes t ht).wildcards rule hrule
  · intro t ht id hid
    rw [Array.size_push]
    exact Nat.lt_succ_of_lt ((htypes t ht).slots id hid)
  · intro slot hslot
    rcases Array.mem_push.1 hslot with hslot | rfl
    · exact ⟨(hslots slot hslot).type, (hslots slot hslot).alternates⟩
    · refine ⟨?_, nofun⟩
      have hlt := lt_of_lookup hroot
      rwa [htypeNames] at hlt
  · rw [Array.size_push]
    exact Nat.lt_succ_self _

end Schema
end UILayout
