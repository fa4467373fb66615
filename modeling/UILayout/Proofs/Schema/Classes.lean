import UILayout.Proofs.OrderedMap
import UILayout.Proofs.Schema.Lineage

/-!
# UILayout.Proofs.Schema.Classes

What compiled frame classes have to do with their definitions. Each stands at the place of its definition,
and keeps its parent, and of several properties with one name the last. The chains that the table has are
those of the definitions.

* `FrameClassDef.Gives`, `ClassTables.Of`: classes and properties at their places.
* `lineage_of_compileClasses`, `cycle_of_compileClasses`: when chains end, and when they are refused.
* `wellFounded_parent`: no class that is accepted is above itself.
-/

namespace UILayout
namespace Schema

open Relation

/-! ## Classes and their definitions -/

/-- A property has been compiled from a definition, for a class. -/
structure PropertyDef.Gives (d : PropertyDef) (id : FrameClassId) (p : Property) : Prop where
  name : p.name = d.name
  frameClass : p.frameClass = id
  readOnly : p.readOnly = d.readOnly
  table : p.table = d.table
  tableKey? : p.tableKey? = d.tableKey?

/-- The class of a number has been compiled from a definition, where `names` are those of all classes. Its
properties have numbers from `first` on. -/
structure FrameClassDef.Gives (names : List String) (properties : Array Property) (id : FrameClassId)
    (d : FrameClassDef) (first : Nat) (c : FrameClass) : Prop where
  name : c.name = d.name
  parent : d.parent? = none ∧ c.parent? = none ∨ ∃ name parent, d.parent? = some name ∧
    lookup .frameClass names name d.name = .ok parent ∧ c.parent? = some parent
  own : c.properties =
    ((d.properties.map (·.name)).zipIdx first).foldl (fun m e => m.put e.1 e.2) .empty
  declared : ∀ {k p}, d.properties[k]? = some p →
    ∃ property, properties[first + k]? = some property ∧ p.Gives id property

section

variable {names typeNames : List String} {types : Array ComplexType}

theorem of_addProperties {type : ComplexType} {owner : String} {id : FrameClassId}
    {decls : List PropertyDef} {st st' : Array Property × NameMap PropertyId}
    (h : decls.foldlM (addProperty type owner id) st = .ok st') :
    (∃ added, st'.1.toList = st.1.toList ++ added ∧
      List.Forall₂ (fun d p => PropertyDef.Gives d id p) decls added) ∧
      st'.2 = ((decls.map (·.name)).zipIdx st.1.size).foldl (fun m e => m.put e.1 e.2) st.2 := by
  refine foldlM_induct (P := fun passed (st' : Array Property × NameMap PropertyId) =>
    (∃ added, st'.1.toList = st.1.toList ++ added ∧
      List.Forall₂ (fun d p => PropertyDef.Gives d id p) passed added) ∧
      st'.2 = ((passed.map (·.name)).zipIdx st.1.size).foldl (fun m e => m.put e.1 e.2) st.2) h
    ⟨⟨[], by simp, .nil⟩, rfl⟩ ?_
  rintro passed d u u' ⟨⟨added, hadded, hgives⟩, hown⟩ hadd
  unfold addProperty at hadd
  split at hadd
  · cases hadd
  · cases hadd
    have hsize : u.1.size = st.1.size + passed.length := by
      rw [hgives.length_eq]
      simpa using congrArg List.length hadded
    refine ⟨⟨added ++ [_], by rw [Array.toList_push, hadded, List.append_assoc],
      List.rel_append hgives (.cons ⟨rfl, rfl, rfl, rfl, rfl⟩ .nil)⟩, ?_⟩
    rw [List.map_append, List.zipIdx_append, List.foldl_append, ← hown]
    simp [hsize]

theorem FrameClassDef.Gives.mono {properties properties' : Array Property} {id : FrameClassId}
    {d : FrameClassDef} {first : Nat} {c : FrameClass} (h : d.Gives names properties id first c)
    (hbefore : properties.toList <+: properties'.toList) : d.Gives names properties' id first c where
  name := h.name
  parent := h.parent
  own := h.own
  declared hp := by
    obtain ⟨property, hproperty, hgives⟩ := h.declared hp
    exact ⟨property, getElem?_of_prefix hbefore hproperty, hgives⟩

theorem FrameClassDef.Gives.nodup_keys {properties : Array Property} {id : FrameClassId}
    {d : FrameClassDef} {first : Nat} {c : FrameClass} (h : d.Gives names properties id first c) :
    c.properties.keys.Nodup := by
  rw [h.own]
  refine OrderedMap.nodup_keys_foldl_put ?_ _ _ _
  exact List.nodup_nil

theorem FrameClassDef.Gives.mem_keys {properties : Array Property} {id : FrameClassId}
    {d : FrameClassDef} {first : Nat} {c : FrameClass} (h : d.Gives names properties id first c)
    (name : String) : name ∈ c.properties.keys ↔ name ∈ d.properties.map (·.name) := by
  rw [h.own, OrderedMap.mem_keys_foldl_put]
  simp

/-- A class is put behind the others, and its properties behind theirs. -/
theorem of_compileClass {st st' : ClassTables} {d : FrameClassDef}
    (h : compileClass names typeNames types st d = .ok st') :
    ∃ c, st'.classes = st.classes.push c ∧ st.properties.toList <+: st'.properties.toList ∧
      d.Gives names st'.properties st.classes.size st.properties.size c := by
  have hcompiled : ∀ {parent? : Option FrameClassId} {typeId : ComplexTypeId} {type : ComplexType}
      {added : Array Property × NameMap PropertyId},
      (d.parent? = none ∧ parent? = none ∨ ∃ name parent, d.parent? = some name ∧
        lookup .frameClass names name d.name = .ok parent ∧ parent? = some parent) →
      d.properties.foldlM (addProperty type d.name st.classes.size) (st.properties, .empty) = .ok added →
      st.properties.toList <+: added.1.toList ∧ d.Gives names added.1 st.classes.size
        st.properties.size ⟨d.name, parent?, typeId, added.2⟩ := by
    intro parent? typeId type added hparent hadd
    obtain ⟨⟨more, hmore, hgives⟩, hown⟩ := of_addProperties hadd
    exact ⟨⟨more, hmore.symm⟩, rfl, hparent, hown, fun hp => getElem?_of_added hmore hgives hp⟩
  unfold compileClass at h
  dsimp only at h
  split at h
  · rename_i name hname
    obtain ⟨parent?, hparent, h⟩ := exists_of_bind_eq_ok h
    obtain ⟨parent, hlookup, rfl⟩ := exists_of_map_eq_ok hparent
    obtain ⟨typeId, -, h⟩ := exists_of_bind_eq_ok h
    split at h
    · cases h
    · obtain ⟨added, hadd, h⟩ := exists_of_bind_eq_ok h
      cases h
      obtain ⟨hbefore, hgives⟩ := hcompiled (.inr ⟨name, parent, hname, hlookup, rfl⟩) hadd
      exact ⟨_, rfl, hbefore, hgives⟩
  · rename_i hname
    obtain ⟨parent?, hparent, h⟩ := exists_of_bind_eq_ok h
    cases hparent
    obtain ⟨typeId, -, h⟩ := exists_of_bind_eq_ok h
    split at h
    · cases h
    · obtain ⟨added, hadd, h⟩ := exists_of_bind_eq_ok h
      cases h
      obtain ⟨hbefore, hgives⟩ := hcompiled (.inl ⟨hname, rfl⟩) hadd
      exact ⟨_, rfl, hbefore, hgives⟩

/-- The classes of a table, each at the place of its definition. -/
structure ClassTables.Of (names : List String) (defs : List FrameClassDef) (tables : ClassTables) :
    Prop where
  size : tables.classes.size = defs.length
  classes : ∀ {id : FrameClassId} {d : FrameClassDef}, defs[id]? = some d →
    ∃ first c, tables.classes[id]? = some c ∧ d.Gives names tables.properties id first c

theorem of_compileClassesFrom {defs : List FrameClassDef} {tables : ClassTables}
    (h : defs.foldlM (compileClass names typeNames types) ⟨#[], #[]⟩ = .ok tables) :
    tables.Of names defs := by
  refine foldlM_induct (P := fun passed (st : ClassTables) => st.Of names passed) h
    ⟨rfl, fun hd => by simp at hd⟩ ?_
  rintro passed d st st' ⟨hsize, hclasses⟩ hstep
  obtain ⟨c, hpush, hbefore, hgives⟩ := of_compileClass hstep
  refine ⟨by simp [hpush, hsize], fun {id d'} hd' => ?_⟩
  rw [hpush]
  rcases Nat.lt_or_ge id passed.length with hlt | hge
  · rw [List.getElem?_append_left hlt] at hd'
    obtain ⟨first, c', hc', hgives'⟩ := hclasses hd'
    refine ⟨first, c', ?_, hgives'.mono hbefore⟩
    rw [Array.getElem?_push_lt (hsize ▸ hlt), ← hc', Array.getElem?_eq_getElem (hsize ▸ hlt)]
  · have hlt := (List.getElem?_eq_some_iff.1 hd').1
    rw [List.length_append, List.length_singleton] at hlt
    obtain rfl := Nat.le_antisymm (Nat.le_of_lt_succ hlt) hge
    simp only [List.getElem?_concat_length, Option.some.injEq] at hd'
    subst hd'
    exact ⟨st.properties.size, c, by simp [← hsize], hsize ▸ hgives⟩

end

/-! ## Chains in a table -/

namespace ClassTables.Of

variable {defs : List FrameClassDef} {tables : ClassTables} {id parent : FrameClassId}
  {chain : List FrameClassId}

theorem getElem? (h : tables.Of (defs.map (·.name)) defs) {c : FrameClass}
    (hc : tables.classes[id]? = some c) : ∃ d first, defs[id]? = some d ∧
      d.Gives (defs.map (·.name)) tables.properties id first c := by
  have hlt := h.size ▸ (Array.getElem?_eq_some_iff.1 hc).1
  obtain ⟨first, c', hc', hgives⟩ := h.classes (List.getElem?_eq_getElem hlt)
  rw [hc] at hc'
  cases hc'
  exact ⟨_, first, List.getElem?_eq_getElem hlt, hgives⟩

theorem exists_parent (h : tables.Of (defs.map (·.name)) defs) {d : FrameClassDef} {name : String}
    (hd : defs[id]? = some d) (hname : d.parent? = some name) : ∃ p, Parent defs id p := by
  obtain ⟨first, c, -, hgives⟩ := h.classes hd
  rcases hgives.parent with ⟨hnone, -⟩ | ⟨name', p, hname', hlookup, -⟩
  · rw [hname] at hnone
    cases hnone
  · have hp := getElem?_of_lookup hlookup
    rw [List.getElem?_map] at hp
    obtain ⟨b, hb, rfl⟩ := Option.map_eq_some_iff.1 hp
    exact ⟨p, d, b, hd, hb, hname'⟩

/-- A step up in the table is a step to the parent. -/
theorem parent?_eq_some_iff (h : tables.Of (defs.map (·.name)) defs)
    (hnames : (defs.map (·.name)).Nodup) :
    tables.classes[id]?.bind (·.parent?) = some parent ↔ Parent defs id parent := by
  constructor
  · intro hparent
    obtain ⟨c, hc, hparent⟩ := Option.bind_eq_some_iff.1 hparent
    obtain ⟨d, first, hd, hgives⟩ := h.getElem? hc
    rcases hgives.parent with ⟨-, hnone⟩ | ⟨name, p, hname, hlookup, hp⟩
    · rw [hnone] at hparent
      cases hparent
    · obtain rfl := Option.some.inj (hp.symm.trans hparent)
      have hp := getElem?_of_lookup hlookup
      rw [List.getElem?_map] at hp
      obtain ⟨b, hb, rfl⟩ := Option.map_eq_some_iff.1 hp
      exact ⟨d, b, hd, hb, hname⟩
  · rintro ⟨d, b, hd, hb, hname⟩
    obtain ⟨first, c, hc, hgives⟩ := h.classes hd
    rw [hc, Option.bind_some]
    rcases hgives.parent with ⟨hnone, -⟩ | ⟨name, p, hname', hlookup, hp⟩
    · rw [hname] at hnone
      cases hnone
    · obtain rfl := Option.some.inj (hname.symm.trans hname')
      have hb' : (defs.map (·.name))[parent]? = some b.name := by rw [List.getElem?_map, hb]; rfl
      have heq := hlookup.symm.trans (lookup_of_getElem? .frameClass d.name hnames hb')
      cases heq
      exact hp

theorem parent?_eq_none_iff (h : tables.Of (defs.map (·.name)) defs) {d : FrameClassDef}
    (hd : defs[id]? = some d) : tables.classes[id]?.bind (·.parent?) = none ↔ d.parent? = none := by
  obtain ⟨first, c, hc, hgives⟩ := h.classes hd
  rw [hc, Option.bind_some]
  rcases hgives.parent with ⟨hnone, hnone'⟩ | ⟨name, p, hname, -, hp⟩
  · simp [hnone, hnone']
  · simp [hname, hp]

theorem lineage_of_classChain? (h : tables.Of (defs.map (·.name)) defs)
    (hnames : (defs.map (·.name)).Nodup) {bound : Nat} (hid : id < defs.length)
    (hchain : classChain? tables.classes bound (some id) = some chain) : Lineage defs id chain := by
  induction bound generalizing id chain with
  | zero => cases hchain
  | succ bound ih =>
    obtain ⟨rest, hrest, rfl⟩ := Option.map_eq_some_iff.1 hchain
    cases hparent : tables.classes[id]?.bind (·.parent?) with
    | none =>
      rw [hparent, classChain?] at hrest
      cases hrest
      have hd := List.getElem?_eq_getElem hid
      exact .root hd ((h.parent?_eq_none_iff hd).1 hparent)
    | some parent =>
      rw [hparent] at hrest
      have hstep := (h.parent?_eq_some_iff hnames).1 hparent
      exact .child hstep (ih hstep.parent_lt hrest)

theorem classChain?_of_lineage (h : tables.Of (defs.map (·.name)) defs)
    (hnames : (defs.map (·.name)).Nodup) {bound : Nat} (hchain : Lineage defs id chain)
    (hbound : chain.length ≤ bound) : classChain? tables.classes bound (some id) = some chain := by
  induction hchain generalizing bound with
  | root hc hroot =>
    obtain ⟨bound, rfl⟩ := Nat.exists_eq_add_of_lt hbound
    rw [List.length_nil, Nat.zero_add, classChain?, (h.parent?_eq_none_iff hc).2 hroot, classChain?]
    rfl
  | child hparent _ ih =>
    obtain ⟨bound, rfl⟩ := Nat.exists_eq_add_of_lt hbound
    rw [classChain?, (h.parent?_eq_some_iff hnames).2 hparent, ih (Nat.le_add_right _ _)]
    rfl

end ClassTables.Of

/-! ## Classes that compile, and classes that are refused -/

section

variable {classes : Array FrameClass} {cs : List FrameClass} {fault : Fault}

theorem classChain?_of_checkChains (h : checkChains classes cs = .ok ()) :
    ∀ c ∈ cs, ∃ chain, classChain? classes classes.size c.parent? = some chain := by
  induction cs with
  | nil => exact nofun
  | cons c rest ih =>
    rw [checkChains] at h
    split at h
    · cases h
    · rename_i chain hchain
      rintro c' (_ | ⟨_, hc'⟩)
      · exact ⟨chain, hchain⟩
      · exact ih h c' hc'

theorem classChain?_of_not_checkChains (h : checkChains classes cs = .error fault) :
    ∃ c ∈ cs, fault = .cycle .frameClass c.name ∧ classChain? classes classes.size c.parent? = none := by
  induction cs with
  | nil => cases h
  | cons c rest ih =>
    rw [checkChains] at h
    split at h
    · rename_i hnone
      cases h
      exact ⟨c, List.mem_cons_self, rfl, hnone⟩
    · obtain ⟨c', hc', hfault⟩ := ih h
      exact ⟨c', List.mem_cons_of_mem c hc', hfault⟩

end

section

variable {typeNames : List String} {types : Array ComplexType} {defs : List FrameClassDef}
  {tables : ClassTables} {fault : Fault}

/-- When classes compile, every chain ends. -/
theorem lineage_of_compileClasses (h : compileClasses typeNames types defs = .ok tables) :
    (defs.map (·.name)).Nodup ∧ tables.Of (defs.map (·.name)) defs ∧
      ∀ id < defs.length, ∃ chain, Lineage defs id chain := by
  obtain ⟨⟨⟩, hnames, h⟩ := exists_of_bind_eq_ok h
  obtain ⟨tables', htables, h⟩ := exists_of_bind_eq_ok h
  obtain ⟨⟨⟩, hchains, h⟩ := exists_of_bind_eq_ok h
  cases h
  have hnodup := (nodup_of_checkNames hnames).1
  have hof := of_compileClassesFrom htables
  refine ⟨hnodup, hof, fun id hid => ?_⟩
  have hd := List.getElem?_eq_getElem hid
  obtain ⟨first, c, hc, -⟩ := hof.classes hd
  obtain ⟨chain, hchain⟩ :=
    classChain?_of_checkChains hchains c (Array.mem_toList_iff.2 (Array.mem_of_getElem? hc))
  have hbind : tables.classes[id]?.bind (·.parent?) = c.parent? := by rw [hc, Option.bind_some]
  cases hparent : c.parent? with
  | none => exact ⟨[id], .root hd ((hof.parent?_eq_none_iff hd).1 (hbind.trans hparent))⟩
  | some parent =>
    have hstep := (hof.parent?_eq_some_iff hnodup).1 (hbind.trans hparent)
    rw [hparent] at hchain
    exact ⟨id :: chain, .child hstep (hof.lineage_of_classChain? hnodup hstep.parent_lt hchain)⟩

theorem wellFounded_parent (h : compileClasses typeNames types defs = .ok tables) :
    WellFounded fun parent id => Parent defs id parent := by
  obtain ⟨hnames, -, hall⟩ := lineage_of_compileClasses h
  refine ⟨fun id => ?_⟩
  by_cases hid : id < defs.length
  · obtain ⟨chain, hchain⟩ := hall id hid
    exact hchain.acc hnames
  · exact ⟨_, fun parent hparent => absurd hparent.lt hid⟩

theorem single_of_compileClass {names : List String} {st : ClassTables} {d : FrameClassDef}
    (h : compileClass names typeNames types st d = .error fault) : fault.Single := by
  unfold compileClass at h
  dsimp only at h
  -- whether a parent is named makes no difference to what comes behind
  split at h
  all_goals
    rcases of_bind_eq_error h with hfault | ⟨parent?, -, h⟩
    · first
        | exact single_of_lookup (of_map_eq_error hfault)
        | cases hfault
    rcases of_bind_eq_error h with hfault | ⟨typeId, -, h⟩
    · exact single_of_lookup hfault
    split at h
    · cases h
      trivial
    · rcases of_bind_eq_error h with hfault | ⟨added, -, h⟩
      · obtain ⟨-, p, -, st', -, -, hfault⟩ := of_foldlM_eq_error hfault
        unfold addProperty at hfault
        split at hfault <;> cases hfault
        trivial
      · cases h

/-- Classes are refused for a single fault, or because a chain runs into a cycle. -/
theorem cycle_of_compileClasses (h : compileClasses typeNames types defs = .error fault) :
    fault.Single ∨ ∃ id c j, defs[id]? = some c ∧ fault = .cycle .frameClass c.name ∧
      ReflTransGen (Parent defs) id j ∧ TransGen (Parent defs) j j := by
  rcases of_bind_eq_error h with hfault | ⟨⟨⟩, hnames, h⟩
  · exact .inl (single_of_checkNames hfault)
  rcases of_bind_eq_error h with hfault | ⟨tables, htables, h⟩
  · obtain ⟨-, d, -, st, -, -, hfault⟩ := of_foldlM_eq_error hfault
    exact .inl (single_of_compileClass hfault)
  rcases of_bind_eq_error h with hfault | ⟨⟨⟩, -, h⟩
  · obtain ⟨c, hc, rfl, hnone⟩ := classChain?_of_not_checkChains hfault
    obtain ⟨id, hc⟩ := Array.mem_iff_getElem?.1 (Array.mem_toList_iff.1 hc)
    have hnodup := (nodup_of_checkNames hnames).1
    have hof := of_compileClassesFrom htables
    obtain ⟨d, first, hd, hgives⟩ := hof.getElem? hc
    refine .inr ⟨id, d, ?_⟩
    by_contra hacyclic
    obtain ⟨chain, hchain⟩ := exists_lineage (fun hd hname => hof.exists_parent hd hname)
      (List.getElem?_eq_some_iff.1 hd).1 fun j hreach hcycle =>
        hacyclic ⟨j, hd, by rw [hgives.name], hreach, hcycle⟩
    have hbind : tables.classes[id]?.bind (·.parent?) = c.parent? := by rw [hc, Option.bind_some]
    cases hchain with
    | root hd' hroot =>
      rw [← hbind, (hof.parent?_eq_none_iff hd').2 hroot, classChain?] at hnone
      cases hnone
    | child hparent hrest =>
      have hle := hrest.length_le hnodup
      rw [← hof.size] at hle
      rw [← hbind, (hof.parent?_eq_some_iff hnodup).2 hparent,
        hof.classChain?_of_lineage hnodup hrest hle] at hnone
      cases hnone
  · cases h

end

end Schema
end UILayout
