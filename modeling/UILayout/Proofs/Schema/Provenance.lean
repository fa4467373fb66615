import Mathlib
import UILayout.Proofs.Schema.Sources

/-!
# UILayout.Proofs.Schema.Provenance

What a complex type of a loaded schema has, and where it has it from. The order in which types are compiled
is not that of the definition; it does not show. A type has the names that it or an ancestor declares; it
knows which of them are its own; and an inherited one stands for what the recorded ancestor has declared.

* `Placed`: the slots of a type lie one behind the other, apart from those of all others.
* `provenance_of_ofDefinition`: loaded schemas.
-/

namespace UILayout
namespace Schema

open Relation

/-! ## What is there under a name -/

/-- A table of a type holds what the definitions say: `declares` tells what each declares, and `base` what
each extends. -/
structure Sources.Exact {α : Type} (tables : ComplexTypeId → Option (Sources α))
    (base : ComplexTypeId → ComplexTypeId → Prop) (declares : ComplexTypeId → String → Prop)
    (id : ComplexTypeId) (s : Sources α) : Prop where
  nodup : s.entries.keys.Nodup
  split : s.entries.keys.Perm (s.inherited.keys ++ s.own.keys)
  mem_own : ∀ name, name ∈ s.own.keys ↔ declares id name
  mem_entries : ∀ name, name ∈ s.entries.keys ↔ ∃ j, ReflTransGen base id j ∧ declares j name
  source : ∀ name j, s.inherited.get? name = some j → TransGen base id j ∧ j ≠ id ∧
    ∃ src, tables j = some src ∧ name ∈ src.own.keys ∧
      ∃ value, s.entries.get? name = some value ∧ src.entries.get? name = some value

section

variable {α : Type} {simple : List String} {defs : List ComplexTypeDef}
  {compiled : Array ComplexType × Array Slot}

theorem exact_of_compileComplex (A : Aspect ⟨simple, defs.map (·.name)⟩ α)
    (h : compileComplex simple defs = .ok compiled) {id : ComplexTypeId} {t : ComplexType}
    (ht : compiled.1[id]? = some t) :
    (A.of t).Exact (fun j => compiled.1[j]?.map A.of) (Extends defs)
      (fun j name => ∃ d, defs[j]? = some d ∧ name ∈ A.declared d) id := by
  obtain ⟨flat, hall, -, hsize, htypes⟩ :=
    (A.steps (nodup_of_compileComplex h)).compileComplex nofun h
  have hdef : ∀ {j u}, flat.type? j = some u → ∃ d, defs[j]? = some d := by
    intro j u hu
    rw [← htypes] at hu
    have hlt := (Array.getElem?_eq_some_iff.1 hu).1
    exact ⟨_, List.getElem?_eq_getElem (hsize ▸ hlt)⟩
  simp only [htypes] at ht ⊢
  have hcompiled := hall id t ht
  have htraced := hcompiled.traced
  refine ⟨htraced.nodup_entries, ?_, fun name => ?_, fun name => ⟨fun hname => ?_, ?_⟩, ?_⟩
  · refine (List.perm_ext_iff_of_nodup htraced.nodup_entries ?_).2 fun name => ?_
    · refine List.nodup_append.2 ⟨htraced.nodup_inherited, htraced.nodup_own, ?_⟩
      rintro name hinherited _ hown rfl
      exact htraced.apart name hinherited hown
    · rw [htraced.mem_entries, List.mem_append]
  · obtain ⟨d, hd⟩ := hdef ht
    rw [hcompiled.mem_own hd]
    simp [hd]
  · rcases (htraced.mem_entries name).1 hname with hinherited | hown
    · obtain ⟨j, hj⟩ := (OrderedMap.mem_keys_iff _ _).1 hinherited
      obtain ⟨hancestor, src, hsrc, hown, -⟩ := htraced.source hj
      obtain ⟨u, hu, rfl⟩ := Option.map_eq_some_iff.1 hsrc
      obtain ⟨d, hd⟩ := hdef hu
      exact ⟨j, hancestor.to_reflTransGen, d, hd, ((hall j u hu).mem_own hd name).1 hown⟩
    · obtain ⟨d, hd⟩ := hdef ht
      exact ⟨id, .refl, d, hd, (hcompiled.mem_own hd name).1 hown⟩
  · -- The name is handed down from the type that declares it, base by base.
    rintro ⟨j, hreach, d, hd, hname⟩
    clear htraced hcompiled
    induction hreach using ReflTransGen.head_induction_on generalizing t with
    | refl =>
      have hj := hall j t ht
      exact (hj.traced.mem_entries name).2 (.inr ((hj.mem_own hd name).2 hname))
    | head hbase _ ih =>
      obtain ⟨b, hb, hkeys⟩ := (hall _ t ht).bases hbase
      exact hkeys (ih hb)
  · intro name j hj
    obtain ⟨hancestor, src, hsrc, hown, hvalue⟩ := htraced.source hj
    obtain ⟨u, hu, rfl⟩ := Option.map_eq_some_iff.1 hsrc
    have hmem := ((hall j u hu).traced.mem_entries name).2 (.inr hown)
    obtain ⟨value, hfound⟩ := (OrderedMap.mem_keys_iff _ _).1 hmem
    refine ⟨hancestor, ?_, A.of u, by rw [hu]; rfl, hown, value, hvalue.trans hfound, hfound⟩
    rintro rfl
    exact not_transGen_self ((wellFounded_extends h).apply _) hancestor

/-! ## Slots -/

/-- The slots of a type's own lie one behind the other, from `first` on. -/
structure Placed (flat : Flat) (d : ComplexTypeDef) (first : Nat) (t : ComplexType) : Prop where
  name : t.name = d.name
  below : first + d.slots.length ≤ flat.slots.size
  gives : ∀ {k : Nat} {e : SlotDef}, d.slots[k]? = some e →
    ∃ slot, flat.slots[first + k]? = some slot ∧ e.Gives slot
  last : ∀ {before : List SlotDef} {e : SlotDef} {after : List SlotDef},
    d.slots = before ++ e :: after → e.name ∉ after.map (·.name) →
      t.slots.get? e.name = some (first + before.length)

/-- All slots are placed, and no two types have slots in the same place. -/
structure Numbered (defs : List ComplexTypeDef) (flat : Flat) (first : ComplexTypeId → Nat) :
    Prop where
  placed : ∀ {id : ComplexTypeId} {t : ComplexType} {d : ComplexTypeDef}, flat.type? id = some t →
    defs[id]? = some d → Placed flat d (first id) t
  apart : ∀ {id j : ComplexTypeId} {t u : ComplexType} {d e : ComplexTypeDef},
    flat.type? id = some t → flat.type? j = some u → defs[id]? = some d → defs[j]? = some e → id ≠ j →
      first id + d.slots.length ≤ first j ∨ first j + e.slots.length ≤ first id

theorem Placed.mono {flat flat' : Flat} {d : ComplexTypeDef} {first : Nat} {t : ComplexType}
    (h : Placed flat d first t) (hslots : flat.slots.toList <+: flat'.slots.toList) :
    Placed flat' d first t where
  name := h.name
  below := h.below.trans (by simpa using hslots.length_le)
  gives he := by
    obtain ⟨slot, hslot, hgives⟩ := h.gives he
    exact ⟨slot, getElem?_of_prefix hslots hslot, hgives⟩
  last := h.last

theorem placed_addOwn {names : Names} {d : ComplexTypeDef} {t : ComplexType} {slots : Array Slot}
    {st : ComplexType × Array Slot} (h : addOwn names d t slots = .ok st) (hname : t.name = d.name)
    (types : List (ComplexTypeId × ComplexType)) : Placed ⟨types, st.2⟩ d slots.size st.1 := by
  obtain ⟨hsame, -, ⟨added, hadded, hgives⟩, hslots⟩ := sources_addOwn h
  have hsize : st.2.size = slots.size + d.slots.length := by
    rw [hgives.length_eq]
    simpa using congrArg List.length hadded
  refine ⟨hsame.trans hname, hsize.ge, fun he => getElem?_of_added hadded hgives he,
    fun {before e after} hd hlast => ?_⟩
  · change st.1.slotSources.entries.get? e.name = _
    rw [hslots, hd, Sources.entries_foldl_define]
    simp only [List.map_append, List.map_cons, List.zipIdx_append, List.zipIdx_cons, List.length_map]
    exact OrderedMap.get?_foldl_put_last _ _ _ (by simpa using hlast)

/-- Slots are numbered in the order in which types are compiled. -/
theorem steps_numbered (names : Names) (defs : List ComplexTypeDef) :
    Steps names defs (fun flat => ∃ first, Numbered defs flat first)
      fun _ id _ t => ∀ d, defs[id]? = some d → t.name = d.name where
  bare _ hd d' hd' := by
    rw [hd] at hd'
    cases hd'
    rfl
  leads ht _ := ht
  inherit _ ht _ _ _ _ := ht
  own {flat id d _ t st} := by
    rintro ⟨first, hfirst⟩ ht hd hnew _ hadd
    have hplaced := placed_addOwn hadd (ht d hd) ((id, st.1) :: flat.types)
    refine ⟨fun j => if j = id then flat.slots.size else first j, fun {j u e} hj he => ?_,
      fun {i j u v e f} hi hj he hf hne => ?_⟩
    · rw [Flat.type?_cons] at hj
      split at hj
      · rename_i heq
        subst heq
        cases hj
        rw [hd] at he
        cases he
        rwa [if_pos rfl]
      · rename_i hne
        rw [if_neg hne]
        exact (hfirst.placed hj he).mono (prefix_of_addOwn hadd)
    · rw [Flat.type?_cons] at hi hj
      split at hi
      · rename_i heq
        subst heq
        rw [if_neg (Ne.symm hne)] at hj
        rw [if_pos rfl, if_neg (Ne.symm hne)]
        exact .inr (hfirst.placed hj hf).below
      · rename_i hi'
        rw [if_neg hi']
        split at hj
        · rename_i heq
          subst heq
          rw [if_pos rfl]
          exact .inl (hfirst.placed hi he).below
        · rename_i hj'
          rw [if_neg hj']
          exact hfirst.apart hi hj he hf hne

end

/-- The definition of a slot: the number of a complex type, and the place in its definition. -/
def Definition.slot? (d : Definition) (id : ComplexTypeId) (k : Nat) : Option SlotDef :=
  d.complexTypes[id]?.bind (·.slots[k]?)

/-- Every definition of a slot has a slot that it shares with no other. -/
structure SlotNumbers (d : Definition) (s : Schema) (slotOf : ComplexTypeId → Nat → SlotId) : Prop where
  injective : ∀ {id k e j m f}, d.slot? id k = some e → d.slot? j m = some f →
    slotOf id k = slotOf j m → id = j ∧ k = m
  gives : ∀ {id k e}, d.slot? id k = some e → slotOf id k ≠ s.root ∧
    ∃ slot, s.slots[slotOf id k]? = some slot ∧ e.Gives slot
  own : ∀ {id t name}, s.complexTypes[id]? = some t → name ∈ t.ownSlots.keys →
    ∃ k e, d.slot? id k = some e ∧ e.name = name ∧ t.slots.get? name = some (slotOf id k)

theorem exists_last_of_mem {α β : Type} [DecidableEq β] {f : α → β} {as : List α} {b : β}
    (h : b ∈ as.map f) : ∃ before a after, as = before ++ a :: after ∧ f a = b ∧ b ∉ after.map f := by
  induction as with
  | nil => cases h
  | cons a rest ih =>
    by_cases hrest : b ∈ rest.map f
    · obtain ⟨before, a', after, rfl, heq, hlast⟩ := ih hrest
      exact ⟨a :: before, a', after, rfl, heq, hlast⟩
    · have heq : b = f a := by simpa [hrest] using h
      exact ⟨[], a, rest, rfl, heq.symm, hrest⟩

/-- Every type of a loaded schema has its attributes and slots from where the definition says, and every
definition of a slot has a slot of its own. -/
theorem provenance_of_ofDefinition {d : Definition} {s : Schema} (h : ofDefinition d = .ok s) :
    (∀ (id : ComplexTypeId) (t : ComplexType), s.complexTypes[id]? = some t →
      (∃ c, d.complexTypes[id]? = some c ∧ t.name = c.name) ∧
      t.attributeSources.Exact (fun j => s.complexTypes[j]?.map (·.attributeSources))
        (Extends d.complexTypes)
        (fun j name => ∃ c, d.complexTypes[j]? = some c ∧ name ∈ c.attributes.map (·.name)) id ∧
      t.slotSources.Exact (fun j => s.complexTypes[j]?.map (·.slotSources))
        (Extends d.complexTypes)
        (fun j name => ∃ c, d.complexTypes[j]? = some c ∧ name ∈ c.slots.map (·.name)) id) ∧
    ∃ slotOf, SlotNumbers d s slotOf := by
  obtain ⟨_, compiled, _, _, _, -, hcomplex, -, -, -, rfl⟩ := exists_of_ofDefinition h
  obtain ⟨flat, ⟨first, hfirst⟩, hslots, hsize, htypes⟩ :=
    (steps_numbered _ _).compileComplex ⟨fun _ => 0, nofun, nofun⟩ hcomplex
  have hdef : ∀ {id t}, compiled.1[id]? = some t → ∃ c, d.complexTypes[id]? = some c ∧
      Placed flat c (first id) t := by
    intro id t ht
    have hlt := (Array.getElem?_eq_some_iff.1 ht).1
    have hc := List.getElem?_eq_getElem (hsize ▸ hlt : id < d.complexTypes.length)
    exact ⟨_, hc, hfirst.placed (htypes id ▸ ht) hc⟩
  have htype : ∀ {id k e}, d.slot? id k = some e → ∃ c t, d.complexTypes[id]? = some c ∧
      c.slots[k]? = some e ∧ flat.type? id = some t := by
    intro id k e he
    obtain ⟨c, hc, he⟩ := Option.bind_eq_some_iff.1 he
    have hlt := hsize.symm ▸ (List.getElem?_eq_some_iff.1 hc).1
    exact ⟨c, compiled.1[id], hc, he, by rw [← htypes, Array.getElem?_eq_getElem hlt]⟩
  refine ⟨fun id t ht => ⟨?_, ?_, ?_⟩, fun id k => first id + k, ?_, ?_, ?_⟩
  · obtain ⟨c, hc, hplaced⟩ := hdef ht
    exact ⟨c, hc, hplaced.name⟩
  · exact exact_of_compileComplex (attributeAspect _) hcomplex ht
  · exact exact_of_compileComplex (slotAspect _) hcomplex ht
  · intro id k e j m f he hf heq
    change (first id + k : Nat) = first j + m at heq
    obtain ⟨c, t, hc, hk, ht⟩ := htype he
    obtain ⟨b, u, hb, hm, hu⟩ := htype hf
    have hk' := (List.getElem?_eq_some_iff.1 hk).1
    have hm' := (List.getElem?_eq_some_iff.1 hm).1
    by_cases hne : id = j
    · subst hne
      exact ⟨rfl, by simpa using heq⟩
    · have := hfirst.apart ht hu hc hb hne
      omega
  · intro id k e he
    obtain ⟨c, t, hc, hk, ht⟩ := htype he
    have hplaced := hfirst.placed ht hc
    obtain ⟨slot, hslot, hgives⟩ := hplaced.gives hk
    rw [hslots] at hslot
    have hlt := (Array.getElem?_eq_some_iff.1 hslot).1
    refine ⟨Nat.ne_of_lt hlt, slot, ?_, hgives⟩
    rw [Array.getElem?_push_lt hlt, ← Array.getElem?_eq_getElem hlt, hslot]
  · intro id t name ht hname
    have hexact := exact_of_compileComplex (slotAspect _) hcomplex ht
    obtain ⟨c, hc, hmem⟩ := (hexact.mem_own name).1 hname
    obtain ⟨c', hc', hplaced⟩ := hdef ht
    rw [hc] at hc'
    cases hc'
    obtain ⟨before, e, after, hsplit, rfl, hlast⟩ := exists_last_of_mem hmem
    refine ⟨before.length, e, ?_, rfl, hplaced.last hsplit hlast⟩
    rw [Definition.slot?, hc]
    simp [hsplit]

/-- A type with two bases that have one base in common. Each of the two declares again what the common one
declares: one the slot, the other the attribute. -/
def diamond : Definition :=
  let text : AttributeDef := ⟨"id", "string", false, none, none, none⟩
  let child : SlotDef := ⟨"Child", .desc, "Base", .empty, none, none⟩
  let type (name : String) (bases : List String) (attributes : List AttributeDef)
      (slots : List SlotDef) : ComplexTypeDef :=
    ⟨name, bases, ⟨false, false, false⟩, attributes, [], slots, none, none⟩
  { root := ⟨"Root", "Both"⟩
    simpleTypes := [⟨"string", .default, .string, true, none, [], [], [], none⟩]
    complexTypes := [type "Both" ["Left", "Right"] [] [], type "Left" ["Base"] [] [child],
      type "Right" ["Base"] [text] [], type "Base" [] [text] [child]]
    frameClasses := []
    frameTypes := [] }

/-- The later base has brought its own attribute, and has brought back the slot of the common base. -/
theorem provenance_diamond : ∃ s, ofDefinition diamond = .ok s ∧ ∃ t, s.complexTypes[0]? = some t ∧
    t.inheritedAttributes.get? "id" = some 2 ∧ t.inheritedSlots.get? "Child" = some 3 ∧
    t.slotSources.Exact (fun j => s.complexTypes[j]?.map (·.slotSources))
      (Extends diamond.complexTypes)
      (fun j name => ∃ c, diamond.complexTypes[j]? = some c ∧ name ∈ c.slots.map (·.name)) 0 ∧
    ∃ slotOf, SlotNumbers diamond s slotOf := by
  have hrun : ((ofDefinition diamond).toOption.bind fun s => s.complexTypes[0]?.map fun t =>
      (t.inheritedAttributes.get? "id", t.inheritedSlots.get? "Child")) = some (some 2, some 3) := by
    cbv
  obtain ⟨s, hs, ht⟩ := Option.bind_eq_some_iff.1 hrun
  obtain ⟨t, ht, hsources⟩ := Option.map_eq_some_iff.1 ht
  obtain ⟨hattribute, hslot⟩ := Prod.mk.inj hsources
  obtain ⟨hall, hslots⟩ := provenance_of_ofDefinition (ok_of_toOption hs)
  exact ⟨s, ok_of_toOption hs, t, ht, hattribute, hslot, (hall 0 t ht).2.2, hslots⟩

end Schema
end UILayout
