import UILayout.Proofs.Schema.Closed

/-!
# UILayout.Proofs.Schema.Named

The attributes of a type in a loaded schema stand under their names, each under one. So an attribute
that is looked up by a name has this name, whichever base it comes from.

* `steps_all`: a property of single types that compiling keeps.
* `named_of_ofDefinition`: loaded schemas.
-/

namespace UILayout
namespace Schema

/-- Attributes that stand under their names. -/
structure Named (attributes : NameMap AttributeType) : Prop where
  nodup : attributes.keys.Nodup
  name_eq : ∀ {name : String} {a : AttributeType}, attributes.get? name = some a → a.name = name

namespace Named

variable {attributes : NameMap AttributeType}

theorem empty : Named .empty := ⟨.nil, nofun⟩

theorem put (h : Named attributes) (a : AttributeType) : Named (attributes.put a.name a) := by
  refine ⟨OrderedMap.nodup_keys_put h.nodup _ _, fun {name found} hfound => ?_⟩
  rw [OrderedMap.get?_put] at hfound
  split at hfound
  · rename_i hname
    cases hfound
    exact hname.symm
  · exact h.name_eq hfound

theorem foldl_put (h : Named attributes) (entries : List (String × AttributeType))
    (hentries : ∀ e ∈ entries, e.2.name = e.1) :
    Named (entries.foldl (fun m e => m.put e.1 e.2) attributes) := by
  induction entries generalizing attributes with
  | nil => exact h
  | cons e rest ih =>
    have hput := h.put e.2
    rw [hentries e List.mem_cons_self] at hput
    exact ih hput fun e' he' => hentries e' (List.mem_cons_of_mem e he')

theorem name_of_mem (h : Named attributes) : ∀ e ∈ attributes.entries, e.2.name = e.1 := by
  rintro ⟨name, a⟩ he
  exact h.name_eq (OrderedMap.get?_of_mem h.nodup he)

theorem map_name_values (h : Named attributes) :
    attributes.values.map (·.name) = attributes.keys := by
  rw [OrderedMap.values, OrderedMap.keys, List.map_map]
  exact List.map_congr_left h.name_of_mem

end Named

/-! ## Compiling -/

/-- All types that are compiled so far have a property. -/
def Flat.All (P : ComplexType → Prop) (flat : Flat) : Prop :=
  ∀ id t, flat.type? id = some t → P t

/-- What holds of types without anything, and is kept by taking over bases and by adding what a definition
says, holds of all types that are compiled. -/
theorem steps_all {names : Names} {defs : List ComplexTypeDef} {P : ComplexType → Prop}
    (hbare : ∀ d, P (.bare d)) (hinherit : ∀ {t base} id, P t → P base → P (t.inherit id base))
    (hown : ∀ {d t slots st}, addOwn names d t slots = .ok st → P t → P st.1) :
    Steps names defs (Flat.All P) fun _ _ _ t => P t where
  bare _ _ := hbare _
  leads ht _ := ht
  inherit hall ht _ _ _ hbase := hinherit _ ht (hall _ _ hbase)
  own hall ht _ _ _ hadd := by
    intro j u hj
    rw [Flat.type?_cons] at hj
    split at hj
    · cases hj
      exact hown hadd ht
    · exact hall j u hj

section

variable {names : Names} {owner : String} {t t' : ComplexType}

theorem attributes_addWildcard {d : WildcardDef} (h : addWildcard names owner t d = .ok t') :
    t'.attributes = t.attributes := by
  obtain ⟨key, -, h⟩ := exists_of_bind_eq_ok h
  obtain ⟨value, -, h⟩ := exists_of_bind_eq_ok h
  cases h
  rfl

theorem attributes_addSlot {st st' : ComplexType × Array Slot} {d : SlotDef}
    (h : addSlot names owner st d = .ok st') : st'.1.attributes = st.1.attributes := by
  obtain ⟨alternates, -, h⟩ := exists_of_bind_eq_ok h
  obtain ⟨type, -, h⟩ := exists_of_bind_eq_ok h
  cases h
  rfl

theorem Named.addAttribute (h : Named t.attributes) {d : AttributeDef}
    (hadd : Schema.addAttribute names owner t d = .ok t') : Named t'.attributes := by
  obtain ⟨type, -, hadd⟩ := exists_of_bind_eq_ok hadd
  cases hadd
  exact h.put ⟨d.name, type, d.required, d.default?, d.label?, d.documentation?⟩

theorem Named.addOwn (h : Named t.attributes) {d : ComplexTypeDef} {slots : Array Slot}
    {st : ComplexType × Array Slot} (hadd : Schema.addOwn names d t slots = .ok st) :
    Named st.1.attributes := by
  obtain ⟨t₁, ht₁, hadd⟩ := exists_of_bind_eq_ok hadd
  obtain ⟨t₂, ht₂, hadd⟩ := exists_of_bind_eq_ok hadd
  have hattributes := foldlM_induct (P := fun _ t => Named t.attributes) ht₁ h
    fun _ _ _ _ ht hadd => ht.addAttribute hadd
  have hwildcards := foldlM_induct (P := fun _ t => Named t.attributes) ht₂ hattributes
    fun _ _ _ _ ht hadd => (attributes_addWildcard hadd).symm ▸ ht
  exact foldlM_induct (P := fun _ st => Named st.1.attributes) hadd hwildcards
    fun _ _ _ _ ht hadd => (attributes_addSlot hadd).symm ▸ ht

end

theorem named_of_compileComplex {simple : List String} {defs : List ComplexTypeDef}
    {compiled : Array ComplexType × Array Slot} (h : compileComplex simple defs = .ok compiled) :
    ∀ t ∈ compiled.1, Named t.attributes := by
  have hsteps : Steps ⟨simple, defs.map (·.name)⟩ defs (Flat.All fun t => Named t.attributes)
      fun _ _ _ t => Named t.attributes :=
    steps_all (fun _ => .empty) (fun _ ht hbase => ht.foldl_put _ hbase.name_of_mem)
      fun hadd ht => ht.addOwn hadd
  obtain ⟨flat, hall, -, -, htypes⟩ := hsteps.compileComplex nofun h
  intro t ht
  obtain ⟨id, hid⟩ := Array.mem_iff_getElem?.1 ht
  rw [htypes] at hid
  exact hall id t hid

theorem named_of_ofDefinition {d : Definition} {s : Schema} (h : ofDefinition d = .ok s) :
    ∀ t ∈ s.complexTypes, Named t.attributes := by
  obtain ⟨_, _, _, _, _, -, hcomplex, -, -, -, rfl⟩ := exists_of_ofDefinition h
  exact named_of_compileComplex hcomplex

end Schema
end UILayout
