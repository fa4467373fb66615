import Mathlib.Data.List.Perm.Basic
import UILayout.Proofs.OrderedMap
import UILayout.Proofs.Schema.Ancestry

/-!
# UILayout.Proofs.Schema.Sources

Attributes and slots of a complex type, and where each comes from. The two tables are kept in the same
way, so both are looked at as one: values under names, the type that an inherited one comes from, and the
names that the type's own definition declares. A base may replace what an earlier one has brought, and a
declaration what any has, but a name always leads back to a proper ancestor that declares it.

* `Sources.Traced`: inherited names lead to ancestors that have declared them.
* `Aspect.steps`: every type that is compiled has traced sources.
-/

namespace UILayout
namespace Schema

open Relation

/-! ## One table -/

/-- Values by name: the inherited ones with the type that they come from, and those of the type's own. -/
structure Sources (α : Type) where
  entries : NameMap α
  inherited : NameMap ComplexTypeId
  own : NameMap Unit

namespace Sources

variable {α : Type}

def empty : Sources α := ⟨.empty, .empty, .empty⟩

/-- Takes over what a base has. -/
def inherit (s : Sources α) (id : ComplexTypeId) (base : Sources α) : Sources α where
  entries := base.entries.entries.foldl (fun m e => m.put e.1 e.2) s.entries
  inherited := base.entries.keys.foldl
    (fun m name => m.put name ((base.inherited.get? name).getD id)) s.inherited
  own := s.own

/-- Declares a name. -/
def define (s : Sources α) (name : String) (value : α) : Sources α where
  entries := s.entries.put name value
  inherited := s.inherited.erase name
  own := s.own.put name ()

/-- Every name is either inherited or the type's own, and what is inherited is what an ancestor has that
declares it. -/
structure Traced (tables : ComplexTypeId → Option (Sources α)) (ancestor : ComplexTypeId → Prop)
    (s : Sources α) : Prop where
  nodup_entries : s.entries.keys.Nodup
  nodup_inherited : s.inherited.keys.Nodup
  nodup_own : s.own.keys.Nodup
  mem_entries : ∀ name, name ∈ s.entries.keys ↔ name ∈ s.inherited.keys ∨ name ∈ s.own.keys
  apart : ∀ name ∈ s.inherited.keys, name ∉ s.own.keys
  source : ∀ {name : String} {id : ComplexTypeId}, s.inherited.get? name = some id → ancestor id ∧
    ∃ src, tables id = some src ∧ name ∈ src.own.keys ∧
      s.entries.get? name = src.entries.get? name

section

variable {tables tables' : ComplexTypeId → Option (Sources α)}
  {ancestor ancestor' : ComplexTypeId → Prop} {s base : Sources α}

theorem traced_empty : (empty : Sources α).Traced tables ancestor where
  nodup_entries := .nil
  nodup_inherited := .nil
  nodup_own := .nil
  mem_entries _ := by simp [empty]
  apart := nofun
  source := nofun

theorem Traced.mono (h : s.Traced tables ancestor)
    (htables : ∀ id src, tables id = some src → tables' id = some src) : s.Traced tables' ancestor where
  nodup_entries := h.nodup_entries
  nodup_inherited := h.nodup_inherited
  nodup_own := h.nodup_own
  mem_entries := h.mem_entries
  apart := h.apart
  source hsource := by
    obtain ⟨hid, src, hsrc, hown, hvalue⟩ := h.source hsource
    exact ⟨hid, src, htables _ _ hsrc, hown, hvalue⟩

theorem get?_inherit (hbase : base.entries.keys.Nodup) (id : ComplexTypeId) (name : String) :
    (s.inherit id base).entries.get? name = (base.entries.get? name).or (s.entries.get? name) :=
  OrderedMap.get?_foldl_put s.entries hbase name

theorem inherited_inherit (id : ComplexTypeId) (name : String) :
    (s.inherit id base).inherited.get? name =
      if name ∈ base.entries.keys then some ((base.inherited.get? name).getD id)
      else s.inherited.get? name :=
  OrderedMap.get?_foldl_put_keys s.inherited _ base.entries.keys name

theorem mem_inherit (hbase : base.entries.keys.Nodup) (id : ComplexTypeId) (name : String) :
    name ∈ (s.inherit id base).entries.keys ↔ name ∈ base.entries.keys ∨ name ∈ s.entries.keys := by
  simp only [OrderedMap.mem_keys_iff, get?_inherit hbase]
  cases base.entries.get? name <;> simp

/-- A type that declares nothing yet takes over a base: the base itself is the source of what it
declares, and what the base has inherited keeps its source. -/
theorem Traced.inherit (h : s.Traced tables ancestor) (hown : s.own.keys = []) {id : ComplexTypeId}
    (hbase : base.Traced tables ancestor') (hid : ancestor id) (htable : tables id = some base)
    (hup : ∀ j, ancestor' j → ancestor j) : (s.inherit id base).Traced tables ancestor where
  nodup_entries := OrderedMap.nodup_keys_foldl_put h.nodup_entries _ _ _
  nodup_inherited := OrderedMap.nodup_keys_foldl_put h.nodup_inherited _ _ _
  nodup_own := h.nodup_own
  mem_entries name := by
    rw [mem_inherit hbase.nodup_entries, OrderedMap.mem_keys_iff (s.inherit id base).inherited,
      inherited_inherit]
    by_cases hname : name ∈ base.entries.keys
    · simp [hname]
    · have hs := h.mem_entries name
      rw [hown, OrderedMap.mem_keys_iff s.inherited] at hs
      simp only [hname, false_or, if_false, hs]
      simp [Sources.inherit, hown]
  apart name _ := by
    change name ∉ s.own.keys
    rw [hown]
    exact List.not_mem_nil
  source {name j} hsource := by
    rw [inherited_inherit] at hsource
    rw [get?_inherit hbase.nodup_entries]
    split at hsource
    · rename_i hname
      obtain ⟨value, hvalue⟩ := (OrderedMap.mem_keys_iff _ _).1 hname
      rw [hvalue, Option.some_or]
      cases hfound : base.inherited.get? name with
      | some k =>
        rw [hfound] at hsource
        cases hsource
        obtain ⟨hj, src, hsrc, hown, heq⟩ := hbase.source hfound
        exact ⟨hup _ hj, src, hsrc, hown, hvalue ▸ heq⟩
      | none =>
        rw [hfound] at hsource
        cases hsource
        have hmine : name ∈ base.own.keys := by
          refine ((hbase.mem_entries name).1 hname).resolve_left fun hmem => ?_
          obtain ⟨k, hk⟩ := (OrderedMap.mem_keys_iff _ _).1 hmem
          rw [hfound] at hk
          cases hk
        exact ⟨hid, base, htable, hmine, hvalue.symm⟩
    · rename_i hname
      have hnone : base.entries.get? name = none := by
        rw [← Option.not_isSome_iff_eq_none, Option.isSome_iff_exists, ← OrderedMap.mem_keys_iff]
        exact hname
      rw [hnone, Option.none_or]
      exact h.source hsource

theorem get?_define (s : Sources α) (name other : String) (value : α) :
    (s.define name value).entries.get? other =
      if other = name then some value else s.entries.get? other :=
  OrderedMap.get?_put s.entries name other value

/-- What a type declares is its own from then on, whatever it has inherited under the name. -/
theorem Traced.define (h : s.Traced tables ancestor) (name : String) (value : α) :
    (s.define name value).Traced tables ancestor where
  nodup_entries := OrderedMap.nodup_keys_put h.nodup_entries _ _
  nodup_inherited := OrderedMap.nodup_keys_erase h.nodup_inherited _
  nodup_own := OrderedMap.nodup_keys_put h.nodup_own _ _
  mem_entries other := by
    have hs := h.mem_entries other
    simp only [Sources.define, OrderedMap.mem_keys_iff, OrderedMap.get?_put, OrderedMap.get?_erase]
      at hs ⊢
    by_cases hname : other = name
    · simp [hname]
    · simpa [hname] using hs
  apart other := by
    have hs := h.apart other
    simp only [Sources.define, OrderedMap.mem_keys_iff, OrderedMap.get?_put, OrderedMap.get?_erase]
      at hs ⊢
    by_cases hname : other = name
    · simp [hname]
    · simpa [hname] using hs
  source {other id} hsource := by
    rw [Sources.define, OrderedMap.get?_erase] at hsource
    split at hsource
    · cases hsource
    · rename_i hname
      rw [get?_define, if_neg hname]
      exact h.source hsource

theorem Traced.foldl_define (h : s.Traced tables ancestor) (values : List (String × α)) :
    (values.foldl (fun s e => s.define e.1 e.2) s).Traced tables ancestor := by
  induction values generalizing s with
  | nil => exact h
  | cons e rest ih => exact ih (h.define e.1 e.2)

theorem entries_foldl_define (s : Sources α) (values : List (String × α)) :
    (values.foldl (fun s e => s.define e.1 e.2) s).entries =
      values.foldl (fun m e => m.put e.1 e.2) s.entries := by
  induction values generalizing s with
  | nil => rfl
  | cons e rest ih => exact ih (s.define e.1 e.2)

theorem own_foldl_define (s : Sources α) (values : List (String × α)) :
    (values.foldl (fun s e => s.define e.1 e.2) s).own =
      values.foldl (fun m e => m.put e.1 ()) s.own := by
  induction values generalizing s with
  | nil => rfl
  | cons e rest ih => exact ih (s.define e.1 e.2)

end

end Sources

/-! ## The two tables of a complex type -/

def ComplexType.attributeSources (t : ComplexType) : Sources AttributeType :=
  ⟨t.attributes, t.inheritedAttributes, t.ownAttributes⟩

def ComplexType.slotSources (t : ComplexType) : Sources SlotId :=
  ⟨t.slots, t.inheritedSlots, t.ownSlots⟩

/-- A table of complex types that is kept as sources, and what a definition declares in it. -/
structure Aspect (names : Names) (α : Type) where
  of : ComplexType → Sources α
  declared : ComplexTypeDef → List String
  of_bare : ∀ d, of (.bare d) = .empty
  of_inherit : ∀ t id base, of (t.inherit id base) = (of t).inherit id (of base)
  of_addOwn : ∀ {d t slots st}, addOwn names d t slots = .ok st →
    ∃ values : List (String × α), values.map (·.1) = declared d ∧
      of st.1 = values.foldl (fun s e => s.define e.1 e.2) (of t)

section

variable {names : Names} {owner : String} {d : ComplexTypeDef} {t t' : ComplexType} {slots : Array Slot}
  {st st' : ComplexType × Array Slot}

theorem sources_addAttributes {attributes : List AttributeDef}
    (h : attributes.foldlM (addAttribute names owner) t = .ok t') :
    t'.name = t.name ∧ t'.slotSources = t.slotSources ∧ ∃ values : List (String × AttributeType),
      values.map (·.1) = attributes.map (·.name) ∧
        t'.attributeSources = values.foldl (fun s e => s.define e.1 e.2) t.attributeSources := by
  refine foldlM_induct (P := fun passed (t' : ComplexType) => t'.name = t.name ∧
    t'.slotSources = t.slotSources ∧
      ∃ values : List (String × AttributeType), values.map (·.1) = passed.map (·.name) ∧
        t'.attributeSources = values.foldl (fun s e => s.define e.1 e.2) t.attributeSources)
    h ⟨rfl, rfl, [], rfl, rfl⟩ ?_
  rintro passed a u u' ⟨hname, hslots, values, hnames, hvalues⟩ hadd
  obtain ⟨type, -, hadd⟩ := exists_of_bind_eq_ok hadd
  cases hadd
  refine ⟨hname, hslots, values ++ [(a.name, ⟨a.name, type, a.required, a.default?, a.label?,
    a.documentation?⟩)], by simp [hnames], ?_⟩
  rw [List.foldl_append, ← hvalues]
  rfl

theorem sources_addWildcards {wildcards : List WildcardDef}
    (h : wildcards.foldlM (addWildcard names owner) t = .ok t') :
    t'.name = t.name ∧ t'.attributeSources = t.attributeSources ∧ t'.slotSources = t.slotSources := by
  refine foldlM_induct (P := fun _ (t' : ComplexType) => t'.name = t.name ∧
    t'.attributeSources = t.attributeSources ∧ t'.slotSources = t.slotSources) h ⟨rfl, rfl, rfl⟩ ?_
  rintro passed rule u u' ⟨hname, hattributes, hslots⟩ hadd
  obtain ⟨key, -, hadd⟩ := exists_of_bind_eq_ok hadd
  obtain ⟨value, -, hadd⟩ := exists_of_bind_eq_ok hadd
  cases hadd
  exact ⟨hname, hattributes, hslots⟩

/-- A slot has been compiled from a definition. -/
def SlotDef.Gives (d : SlotDef) (slot : Slot) : Prop :=
  slot.name = d.name ∧ slot.kind = d.kind ∧ slot.label? = d.label? ∧
    slot.documentation? = d.documentation?

/-- The slots that are declared are put behind those that are there, one for each declaration. -/
theorem sources_addSlots {decls : List SlotDef}
    (h : decls.foldlM (addSlot names owner) st = .ok st') :
    st'.1.name = st.1.name ∧ st'.1.attributeSources = st.1.attributeSources ∧
      (∃ added, st'.2.toList = st.2.toList ++ added ∧ List.Forall₂ SlotDef.Gives decls added) ∧
      st'.1.slotSources = ((decls.map (·.name)).zipIdx st.2.size).foldl
        (fun s e => s.define e.1 e.2) st.1.slotSources := by
  refine foldlM_induct (P := fun passed (st' : ComplexType × Array Slot) =>
    st'.1.name = st.1.name ∧ st'.1.attributeSources = st.1.attributeSources ∧
      (∃ added, st'.2.toList = st.2.toList ++ added ∧ List.Forall₂ SlotDef.Gives passed added) ∧
      st'.1.slotSources = ((passed.map (·.name)).zipIdx st.2.size).foldl
        (fun s e => s.define e.1 e.2) st.1.slotSources) h
    ⟨rfl, rfl, ⟨[], by simp, .nil⟩, rfl⟩ ?_
  rintro passed d u u' ⟨hname, hattributes, ⟨added, hadded, hgives⟩, hslots⟩ hadd
  obtain ⟨alternates, -, hadd⟩ := exists_of_bind_eq_ok hadd
  obtain ⟨type, -, hadd⟩ := exists_of_bind_eq_ok hadd
  cases hadd
  have hsize : u.2.size = st.2.size + passed.length := by
    rw [hgives.length_eq]
    simpa using congrArg List.length hadded
  refine ⟨hname, hattributes, ⟨added ++ [_], by rw [Array.toList_push, hadded, List.append_assoc],
    List.rel_append hgives (.cons ⟨rfl, rfl, rfl, rfl⟩ .nil)⟩, ?_⟩
  rw [List.map_append, List.zipIdx_append, List.foldl_append, ← hslots]
  simp only [List.map_cons, List.map_nil, List.length_map, List.zipIdx_singleton, List.foldl_cons,
    List.foldl_nil, ← hsize]
  rfl

/-- What a definition says itself is declared in the two tables, and its slots stand behind the others. -/
theorem sources_addOwn (h : addOwn names d t slots = .ok st) :
    st.1.name = t.name ∧ (∃ values : List (String × AttributeType),
      values.map (·.1) = d.attributes.map (·.name) ∧
        st.1.attributeSources = values.foldl (fun s e => s.define e.1 e.2) t.attributeSources) ∧
      (∃ added, st.2.toList = slots.toList ++ added ∧ List.Forall₂ SlotDef.Gives d.slots added) ∧
      st.1.slotSources = ((d.slots.map (·.name)).zipIdx slots.size).foldl
        (fun s e => s.define e.1 e.2) t.slotSources := by
  obtain ⟨t₁, ht₁, h⟩ := exists_of_bind_eq_ok h
  obtain ⟨t₂, ht₂, h⟩ := exists_of_bind_eq_ok h
  obtain ⟨hname₁, hslots₁, values, hnames, hvalues⟩ := sources_addAttributes ht₁
  obtain ⟨hname₂, hattributes₂, hslots₂⟩ := sources_addWildcards ht₂
  obtain ⟨hname, hattributes, hadded, hslots⟩ := sources_addSlots h
  refine ⟨?_, ⟨values, hnames, ?_⟩, hadded, ?_⟩
  · rw [hname, hname₂, hname₁]
  · rw [hattributes, hattributes₂, hvalues]
  · rw [hslots, hslots₂, hslots₁]

end

def attributeAspect (names : Names) : Aspect names AttributeType where
  of := ComplexType.attributeSources
  declared d := d.attributes.map (·.name)
  of_bare _ := rfl
  of_inherit _ _ _ := rfl
  of_addOwn h := (sources_addOwn h).2.1

def slotAspect (names : Names) : Aspect names SlotId where
  of := ComplexType.slotSources
  declared d := d.slots.map (·.name)
  of_bare _ := rfl
  of_inherit _ _ _ := rfl
  of_addOwn {d} _ slots _ h :=
    ⟨(d.slots.map (·.name)).zipIdx slots.size, by simp, (sources_addOwn h).2.2.2⟩

/-! ## All types -/

namespace Aspect

variable {simple : List String} {defs : List ComplexTypeDef} {names : Names} {α : Type}

/-- What is known of a type that is compiled: its bases are compiled, and it has all that they have. -/
structure Compiled (A : Aspect names α) (defs : List ComplexTypeDef) (flat : Flat) (id : ComplexTypeId)
    (t : ComplexType) : Prop where
  traced : (A.of t).Traced (fun j => (flat.type? j).map A.of) (TransGen (Extends defs) id)
  mem_own : ∀ {d}, defs[id]? = some d → ∀ name, name ∈ (A.of t).own.keys ↔ name ∈ A.declared d
  bases : ∀ {base}, Extends defs id base → ∃ b, flat.type? base = some b ∧
    (A.of b).entries.keys ⊆ (A.of t).entries.keys

/-- What is known of a type that takes over its bases: nothing in it is its own yet. -/
structure Begun (A : Aspect names α) (defs : List ComplexTypeDef) (flat : Flat) (id : ComplexTypeId)
    (passed : List ComplexTypeId) (t : ComplexType) : Prop where
  traced : (A.of t).Traced (fun j => (flat.type? j).map A.of) (TransGen (Extends defs) id)
  own : (A.of t).own.keys = []
  bases : ∀ base ∈ passed, ∃ b, flat.type? base = some b ∧
    (A.of b).entries.keys ⊆ (A.of t).entries.keys

theorem Compiled.mono {A : Aspect names α} {flat flat' : Flat} {id : ComplexTypeId} {t : ComplexType}
    (h : A.Compiled defs flat id t)
    (hflat : ∀ {j u}, flat.type? j = some u → flat'.type? j = some u) : A.Compiled defs flat' id t where
  traced := h.traced.mono fun j src hsrc => by
    obtain ⟨u, hu, rfl⟩ := Option.map_eq_some_iff.1 hsrc
    rw [hflat hu, Option.map_some]
  mem_own := h.mem_own
  bases hbase := by
    obtain ⟨b, hb, hkeys⟩ := h.bases hbase
    exact ⟨b, hflat hb, hkeys⟩

theorem Begun.mono {A : Aspect names α} {flat flat' : Flat} {id : ComplexTypeId}
    {passed : List ComplexTypeId} {t : ComplexType} (h : A.Begun defs flat id passed t)
    (hflat : ∀ {j u}, flat.type? j = some u → flat'.type? j = some u) :
    A.Begun defs flat' id passed t where
  traced := h.traced.mono fun j src hsrc => by
    obtain ⟨u, hu, rfl⟩ := Option.map_eq_some_iff.1 hsrc
    rw [hflat hu, Option.map_some]
  own := h.own
  bases base hbase := by
    obtain ⟨b, hb, hkeys⟩ := h.bases base hbase
    exact ⟨b, hflat hb, hkeys⟩

/-- Every type that is compiled has traced sources. -/
theorem steps (A : Aspect ⟨simple, defs.map (·.name)⟩ α) (hnames : (defs.map (·.name)).Nodup) :
    Steps ⟨simple, defs.map (·.name)⟩ defs
      (fun flat => ∀ id t, flat.type? id = some t → A.Compiled defs flat id t) (A.Begun defs) where
  bare _ _ := by
    refine ⟨?_, ?_, nofun⟩
    · rw [A.of_bare]
      exact Sources.traced_empty
    · rw [A.of_bare]
      rfl
  leads h hleads := h.mono hleads.types
  inherit {_ _ base _ _ _ _ b} hall h hd hname hlookup hbase := by
    have hextends := extends_of_lookup hd hname hlookup
    have hb := hall base b hbase
    refine ⟨?_, ?_, fun other hother => ?_⟩
    · rw [A.of_inherit]
      exact h.traced.inherit h.own hb.traced (.single hextends) (by rw [hbase]; rfl)
        fun j hj => .head hextends hj
    · rw [A.of_inherit]
      exact h.own
    · rw [A.of_inherit]
      rcases List.mem_append.1 hother with hother | hother
      · obtain ⟨u, hu, hkeys⟩ := h.bases other hother
        exact ⟨u, hu, fun name hname =>
          (Sources.mem_inherit hb.traced.nodup_entries _ _).2 (.inr (hkeys hname))⟩
      · rw [List.mem_singleton.1 hother]
        exact ⟨b, hbase, fun name hname =>
          (Sources.mem_inherit hb.traced.nodup_entries _ _).2 (.inl hname)⟩
  own {flat id d passed t st} hall h hd hnew hpassed hadd := by
    have hkept : ∀ {j u}, flat.type? j = some u →
        Flat.type? ⟨(id, st.1) :: flat.types, st.2⟩ j = some u := by
      intro j u hu
      rw [Flat.type?_cons, if_neg]
      · exact hu
      · rintro rfl
        rw [hnew] at hu
        cases hu
    intro j u hj
    rw [Flat.type?_cons] at hj
    split at hj
    · rename_i heq
      subst heq
      cases hj
      obtain ⟨values, hdeclared, hvalues⟩ := A.of_addOwn hadd
      have hbegun := h.mono hkept
      refine ⟨?_, fun {d'} hd' name => ?_, fun {base} hextends => ?_⟩
      · rw [hvalues]
        exact hbegun.traced.foldl_define values
      · rw [hd] at hd'
        cases hd'
        rw [hvalues, Sources.own_foldl_define, OrderedMap.mem_keys_foldl_put, h.own, hdeclared]
        simp
      · obtain ⟨b, hb, hkeys⟩ := hbegun.bases base (mem_of_passed hnames hd hpassed hextends)
        refine ⟨b, hb, fun name hname => ?_⟩
        rw [hvalues, Sources.entries_foldl_define, OrderedMap.mem_keys_foldl_put]
        exact .inl (hkeys hname)
    · exact (hall j u hj).mono hkept

end Aspect

end Schema
end UILayout
