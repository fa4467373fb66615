import Mathlib.Logic.Relation
import Mathlib.Order.WellFounded
import UILayout.Proofs.Schema.Faults

/-!
# UILayout.Proofs.Schema.Ancestry

The graph of complex types and the bases that they name. When the types of a definition compile, no type
is among its own ancestors; and the fault that tells of a cycle arises in no other case.

* `wellFounded_extends`: types that compile.
* `cycle_of_compileComplex`: types that are refused for a cycle.
-/

namespace UILayout
namespace Schema

open Relation

/-! ## The graph -/

/-- A complex type names another one as a base. -/
def Extends (defs : List ComplexTypeDef) (id base : ComplexTypeId) : Prop :=
  ∃ d b, defs[id]? = some d ∧ defs[base]? = some b ∧ b.name ∈ d.bases

section

variable {simple : List String} {defs : List ComplexTypeDef} {id base : ComplexTypeId}
  {d : ComplexTypeDef}

theorem extends_of_lookup {name : String} (hd : defs[id]? = some d) (hname : name ∈ d.bases)
    (h : lookup .complexType (defs.map (·.name)) name d.name = .ok base) : Extends defs id base := by
  have hbase := getElem?_of_lookup h
  rw [List.getElem?_map] at hbase
  obtain ⟨b, hb, rfl⟩ := Option.map_eq_some_iff.1 hbase
  exact ⟨d, b, hd, hb, hname⟩

/-- When all bases of a type have been taken over, so has each type that it extends. -/
theorem mem_of_passed {passed : List ComplexTypeId} (hnames : (defs.map (·.name)).Nodup)
    (hd : defs[id]? = some d)
    (hpassed : Passed ⟨simple, defs.map (·.name)⟩ defs d.name d.bases passed)
    (h : Extends defs id base) : base ∈ passed := by
  obtain ⟨d', b, hd', hb, hmem⟩ := h
  rw [hd] at hd'
  cases hd'
  obtain ⟨base', hlookup, hbase'⟩ := hpassed b.name hmem
  have hname : (defs.map (·.name))[base]? = some b.name := by rw [List.getElem?_map, hb]; rfl
  have heq := hlookup.symm.trans (lookup_of_getElem? .complexType d.name hnames hname)
  cases heq
  exact hbase' (List.getElem?_eq_some_iff.1 hb).1

/-- Whatever is compiled stands on bases that have been compiled before, and so on to the ground. -/
theorem steps_acc (hnames : (defs.map (·.name)).Nodup) :
    Steps ⟨simple, defs.map (·.name)⟩ defs
      (fun flat => ∀ id t, flat.type? id = some t → Acc (fun base id => Extends defs id base) id)
      fun flat _ passed _ => ∀ base ∈ passed, (flat.type? base).isSome where
  bare _ _ := nofun
  leads hpassed hleads base hbase := hleads.isSome (hpassed base hbase)
  inherit _ hpassed _ _ _ hbase other hother := by
    rcases List.mem_append.1 hother with hother | hother
    · exact hpassed other hother
    · rw [List.mem_singleton.1 hother]
      exact Option.isSome_of_eq_some hbase
  own hacc hcompiled hd _ hpassed _ := by
    intro j u hj
    rw [Flat.type?_cons] at hj
    split at hj
    · rename_i heq
      subst heq
      refine ⟨_, fun base hbase => ?_⟩
      obtain ⟨b, hb⟩ := Option.isSome_iff_exists.1
        (hcompiled base (mem_of_passed hnames hd hpassed hbase))
      exact hacc base b hb
    · exact hacc j u hj

theorem nodup_of_compileComplex {compiled : Array ComplexType × Array Slot}
    (h : compileComplex simple defs = .ok compiled) : (defs.map (·.name)).Nodup := by
  obtain ⟨⟨⟩, hnames, -⟩ := exists_of_bind_eq_ok h
  exact (nodup_of_checkNames hnames).1

/-- Types that compile have ancestors to a finite depth. -/
theorem wellFounded_extends {compiled : Array ComplexType × Array Slot}
    (h : compileComplex simple defs = .ok compiled) :
    WellFounded fun base id => Extends defs id base := by
  obtain ⟨flat, hacc, -, hsize, htypes⟩ :=
    (steps_acc (nodup_of_compileComplex h)).compileComplex nofun h
  refine ⟨fun id => ?_⟩
  by_cases hid : id < defs.length
  · have ht := htypes id
    rw [Array.getElem?_eq_getElem (hsize.symm ▸ hid)] at ht
    exact hacc id _ ht.symm
  · refine ⟨_, fun base hbase => ?_⟩
    obtain ⟨d, b, hd, -⟩ := hbase
    exact absurd (List.getElem?_eq_some_iff.1 hd).1 hid

/-- From where every way comes to an end, there is no way back to the start. -/
theorem not_transGen_self {α : Type} {r : α → α → Prop} {a : α} (h : Acc (fun b a => r a b) a) :
    ¬ TransGen r a a := by
  have hself : ∀ b, Acc (TransGen fun b a => r a b) b → ¬ TransGen (fun b a => r a b) b b := by
    intro b hb
    induction hb with
    | intro b _ ih => exact fun hcycle => ih b hcycle hcycle
  exact fun hcycle => hself a h.transGen (transGen_swap.2 hcycle)

/-! ## Cycles -/

/-- A fault that names a complex type which is among its own ancestors. -/
def Fault.NamesCycle (defs : List ComplexTypeDef) (fault : Fault) : Prop :=
  ∃ id d, defs[id]? = some d ∧ fault = .cycle .complexType d.name ∧ TransGen (Extends defs) id id

/-- Compiling is refused for a single fault or for a cycle. What is not in `free` is being compiled, and
so leads down to the type or to the owner of the bases. -/
theorem cycle_of_flatten (simple : List String) (defs : List ComplexTypeDef) :
    (∀ free flat id fault, flatten ⟨simple, defs.map (·.name)⟩ defs free flat id = .error fault →
      (∀ j < defs.length, j ∉ free → TransGen (Extends defs) j id) →
      fault.Single ∨ fault.NamesCycle defs) ∧
    ∀ free flat owner t bases fault,
      inheritAll ⟨simple, defs.map (·.name)⟩ defs free flat owner t bases = .error fault →
      ∀ id d before, defs[id]? = some d → d.name = owner → d.bases = before ++ bases →
      (∀ j < defs.length, j ∉ free → ReflTransGen (Extends defs) j id) →
      fault.Single ∨ fault.NamesCycle defs := by
  refine flatten.mutual_induct ⟨simple, defs.map (·.name)⟩ defs
    (fun free flat id => ∀ fault, flatten ⟨simple, defs.map (·.name)⟩ defs free flat id = .error fault →
      (∀ j < defs.length, j ∉ free → TransGen (Extends defs) j id) →
      fault.Single ∨ fault.NamesCycle defs)
    (fun free flat owner t bases => ∀ fault,
      inheritAll ⟨simple, defs.map (·.name)⟩ defs free flat owner t bases = .error fault →
      ∀ id d before, defs[id]? = some d → d.name = owner → d.bases = before ++ bases →
      (∀ j < defs.length, j ∉ free → ReflTransGen (Extends defs) j id) →
      fault.Single ∨ fault.NamesCycle defs)
    ?_ ?_ ?_ ?_ ?_ ?_ ?_ ?_ ?_ ?_
  · intro free flat id t ht fault hrun
    rw [flatten, ht] at hrun
    cases hrun
  · intro free flat id hd ht fault hrun
    rw [flatten, ht, hd] at hrun
    cases hrun
  · intro free flat id d hd ht hmem fault hbases ih fault' hrun hopen
    rw [flatten] at hrun
    simp only [ht, hd, hmem, dif_pos, hbases] at hrun
    cases hrun
    refine ih fault hbases id d [] hd rfl rfl fun j hj hfree => ?_
    by_cases heq : j = id
    · rw [heq]
    · exact (hopen j hj fun hmem => hfree ((List.mem_erase_of_ne heq).2 hmem)).to_reflTransGen
  · intro free flat id d hd ht hmem flat₁ t₁ hbases fault hadd _ fault' hrun hopen
    rw [flatten] at hrun
    simp only [ht, hd, hmem, dif_pos, hbases, hadd] at hrun
    cases hrun
    exact .inl (single_of_addOwn hadd)
  · intro free flat id d hd ht hmem flat₁ t₁ hbases t₂ slots hadd _ fault hrun
    rw [flatten] at hrun
    simp [ht, hd, hmem, hbases, hadd] at hrun
  · intro free flat id d hd ht hmem fault hrun hopen
    rw [flatten] at hrun
    simp only [ht, hd, hmem, dif_neg, not_false_eq_true] at hrun
    cases hrun
    exact .inr ⟨id, d, hd, rfl, hopen id (List.getElem?_eq_some_iff.1 hd).1 hmem⟩
  · intro free flat owner t fault hrun
    rw [inheritAll] at hrun
    cases hrun
  · intro free flat owner t name rest fault hlookup fault' hrun id d before hd hname hsplit hopen
    rw [inheritAll, hlookup] at hrun
    cases hrun
    exact .inl (single_of_lookup hlookup)
  · intro free flat owner t name rest base hlookup fault hflatten ih fault' hrun id d before hd hname
      hsplit hopen
    rw [inheritAll, hlookup] at hrun
    simp only [hflatten] at hrun
    cases hrun
    have hmem : name ∈ d.bases := by rw [hsplit]; simp
    have hextends : Extends defs id base := extends_of_lookup hd hmem (hname ▸ hlookup)
    exact ih fault hflatten fun j hj hfree => .tail' (hopen j hj hfree) hextends
  · intro free flat owner t name rest base hlookup flat₁ hflatten t₁ _ ih fault hrun id d before hd hname
      hsplit hopen
    rw [inheritAll, hlookup] at hrun
    simp only [hflatten] at hrun
    exact ih fault hrun id d (before ++ [name]) hd hname (by rw [hsplit]; simp) hopen

theorem cycle_of_compileComplex {fault : Fault} (h : compileComplex simple defs = .error fault) :
    fault.Single ∨ fault.NamesCycle defs := by
  rcases of_bind_eq_error h with hfault | ⟨⟨⟩, -, h⟩
  · exact .inl (single_of_checkNames hfault)
  rcases of_bind_eq_error h with hfault | ⟨flat, -, h⟩
  · obtain ⟨-, id, -, flat, -, -, hfault⟩ := of_foldlM_eq_error hfault
    refine (cycle_of_flatten simple defs).1 _ _ _ _ hfault fun j hj hfree => ?_
    exact absurd (List.mem_range.2 hj) hfree
  · cases h

end

end Schema
end UILayout
