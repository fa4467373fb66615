import UILayout.Proofs.Schema.FrameTypes

/-!
# UILayout.Proofs.Schema.Refused

Why a definition is refused. A fault that tells of a cycle, or of a property that is there twice, is found
in the definition itself: there is a cycle, or there are two classes.

* `of_ofDefinition_eq_error`: what a fault says about the definition.
-/

namespace UILayout
namespace Schema

open Relation

/-- The names that the class of a number defines properties for, as they are written. -/
def propertyNames (defs : List FrameClassDef) (id : FrameClassId) : List String :=
  (defs[id]?.map fun c => c.properties.map (·.name)).getD []

/-- Two classes in the chain of a frame type define a property of one name. -/
def Definition.Repeats (d : Definition) (ft : FrameTypeDef) (name : String) : Prop :=
  ∃ primary c chain, d.frameClasses[primary]? = some c ∧ c.name = ft.frameClass ∧
    Lineage d.frameClasses primary chain ∧ ∃ a ∈ chain, ∃ b ∈ chain, a ≠ b ∧
      name ∈ propertyNames d.frameClasses a ∧ name ∈ propertyNames d.frameClasses b

/-- A fault that names a union which is its own member. -/
def Fault.NamesItself (defs : List SimpleTypeDef) (fault : Fault) : Prop :=
  ∃ t, fault = .cycle .simpleType t.name ∧ t ∈ defs ∧ t.kind = .union ∧ t.name ∈ t.union

/-- A fault that names a frame class from which parents lead into a cycle. -/
def Fault.LeadsToCycle (defs : List FrameClassDef) (fault : Fault) : Prop :=
  ∃ id c j, defs[id]? = some c ∧ fault = .cycle .frameClass c.name ∧
    ReflTransGen (Parent defs) id j ∧ TransGen (Parent defs) j j

theorem of_compileSimples_eq_error {defs : List SimpleTypeDef} {fault : Fault}
    (h : compileSimples defs = .error fault) : fault.Single ∨ fault.NamesItself defs := by
  rcases of_bind_eq_error h with hfault | ⟨⟨⟩, -, h⟩
  · exact .inl (single_of_checkNames hfault)
  obtain ⟨d, hd, h⟩ := of_mapM_eq_error h
  rcases of_bind_eq_error h with hfault | ⟨patterns, -, h⟩
  · obtain ⟨p, -, hfault⟩ := of_mapM_eq_error hfault
    split at hfault <;> cases hfault
    exact .inl trivial
  rcases of_bind_eq_error h with hfault | ⟨union, -, h⟩
  · obtain ⟨member, -, hfault⟩ := of_mapM_eq_error hfault
    exact .inl (single_of_lookup hfault)
  split at h
  · rename_i hself
    cases h
    exact .inr ⟨d, rfl, hd, hself.1, by simpa using hself.2⟩
  · cases h

section

variable {defs : List FrameClassDef} {tables : ClassTables}

theorem mem_propertyNames_iff (hof : tables.Of (defs.map (·.name)) defs) {id : FrameClassId}
    {c : FrameClass} (hc : tables.classes[id]? = some c) (name : String) :
    name ∈ c.properties.keys ↔ name ∈ propertyNames defs id := by
  obtain ⟨d, first, hd, hgives⟩ := hof.getElem? hc
  rw [hgives.mem_keys, propertyNames, hd]
  rfl

theorem nodup_keys_of_mem (hof : tables.Of (defs.map (·.name)) defs) {chain : List FrameClassId} :
    ∀ c ∈ chain.filterMap (tables.classes[·]?), c.properties.keys.Nodup := by
  intro c hc
  obtain ⟨id, -, hc⟩ := List.mem_filterMap.1 hc
  obtain ⟨d, first, -, hgives⟩ := hof.getElem? hc
  exact hgives.nodup_keys

end

theorem repeats_of_compileFrameTypes {d : Definition} {typeNames : List String} {tables : ClassTables}
    {fault : Fault} (hnames : (d.frameClasses.map (·.name)).Nodup)
    (hof : tables.Of (d.frameClasses.map (·.name)) d.frameClasses)
    (hall : ∀ id < d.frameClasses.length, ∃ chain, Lineage d.frameClasses id chain)
    (h : compileFrameTypes (d.frameClasses.map (·.name)) typeNames tables d.frameTypes =
      .error fault) :
    fault.Single ∨ ∃ ft ∈ d.frameTypes, ∃ name, fault = .duplicateProperty ft.name name ∧
      d.Repeats ft name := by
  refine (of_compileFrameTypes_eq_error h).imp_right ?_
  rintro ⟨ft, hft, primary, hprimary, hmerge⟩
  have hlt := lt_of_lookup hprimary
  rw [List.length_map] at hlt
  obtain ⟨chain, hchain⟩ := hall primary hlt
  have hle := Nat.le_succ_of_le (hchain.length_le hnames)
  rw [← hof.size] at hle
  rw [hof.classChain?_of_lineage hnames hchain hle, Option.getD_some] at hmerge
  obtain ⟨before, c, after, b, name, hsplit, hb, hname, hname', rfl⟩ :=
    of_mergeAll_eq_error (nodup_keys_of_mem hof) hmerge
  obtain ⟨front, back, rfl, rfl, hback⟩ := List.filterMap_eq_append_iff.1 hsplit
  obtain ⟨i, hi, hb⟩ := List.mem_filterMap.1 hb
  obtain ⟨j, hj, hc⟩ := List.mem_filterMap.1 (hback ▸ List.mem_cons_self)
  have hprimary' := getElem?_of_lookup hprimary
  rw [List.getElem?_map] at hprimary'
  obtain ⟨p, hp, hpname⟩ := Option.map_eq_some_iff.1 hprimary'
  refine ⟨ft, hft, name, rfl, primary, p, front ++ back, hp, hpname, hchain, i,
    List.mem_append_left _ hi, j, List.mem_append_right _ hj, ?_,
    (mem_propertyNames_iff hof hb name).1 hname, (mem_propertyNames_iff hof hc name).1 hname'⟩
  exact (List.nodup_append.1 (hchain.nodup hnames)).2.2 i hi j hj

/-- What a fault says about the definition that is refused. -/
theorem of_ofDefinition_eq_error {d : Definition} {fault : Fault} (h : ofDefinition d = .error fault) :
    fault.Single ∨ fault.NamesItself d.simpleTypes ∨ fault.NamesCycle d.complexTypes ∨
      fault.LeadsToCycle d.frameClasses ∨
      ∃ ft ∈ d.frameTypes, ∃ name, fault = .duplicateProperty ft.name name ∧ d.Repeats ft name := by
  rcases of_bind_eq_error h with hfault | ⟨simple, -, h⟩
  · exact (of_compileSimples_eq_error hfault).imp_right .inl
  rcases of_bind_eq_error h with hfault | ⟨compiled, -, h⟩
  · exact (cycle_of_compileComplex hfault).imp_right fun hcycle => .inr (.inl hcycle)
  rcases of_bind_eq_error h with hfault | ⟨rootType, -, h⟩
  · exact .inl (single_of_lookup hfault)
  rcases of_bind_eq_error h with hfault | ⟨tables, htables, h⟩
  · exact (cycle_of_compileClasses hfault).imp_right fun hcycle => .inr (.inr (.inl hcycle))
  rcases of_bind_eq_error h with hfault | ⟨frameTypes, -, h⟩
  · obtain ⟨hnames, hof, hall⟩ := lineage_of_compileClasses htables
    exact (repeats_of_compileFrameTypes hnames hof hall hfault).imp_right
      fun hrepeats => .inr (.inr (.inr hrepeats))
  · cases h

end Schema
end UILayout
