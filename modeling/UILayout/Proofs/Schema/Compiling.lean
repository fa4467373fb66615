import Mathlib.Data.List.Nodup
import UILayout.Proofs.Except
import UILayout.Schema.Load

/-!
# UILayout.Proofs.Schema.Compiling

Compiling complex types goes down to the bases and comes back. What is compiled stays as it is, so a
property of all that is compiled so far has to be looked at in three places only: where a type is begun,
where it takes over a base, and where it adds what its definition says itself.

* `Flat.Leads`: what compiling a type leaves as it is.
* `Steps`, `Steps.run`: what the three steps keep, every run keeps.
* `Steps.compileComplex`: what holds of all types of a table.
* `exists_of_ofDefinition`: what a loaded schema is put together from.
-/

namespace UILayout
namespace Schema

section

variable {noun : Noun} {names : List String} {name source : String} {id : Nat}

theorem getElem?_of_lookup (h : lookup noun names name source = .ok id) : names[id]? = some name := by
  unfold lookup at h
  split at h
  · rename_i i hi
    cases h
    obtain ⟨hlt, heq, -⟩ := List.findIdx?_eq_some_iff_getElem.1 hi
    rw [List.getElem?_eq_getElem hlt]
    exact congrArg some (by simpa using heq)
  · cases h

theorem lt_of_lookup (h : lookup noun names name source = .ok id) : id < names.length :=
  (List.getElem?_eq_some_iff.1 (getElem?_of_lookup h)).1

end

/-! ## What stays -/

section

variable {α β : Type} {before after : Array α}

theorem getElem?_of_prefix (h : before.toList <+: after.toList) {i : Nat} {a : α}
    (hi : before[i]? = some a) : after[i]? = some a := by
  obtain ⟨more, hmore⟩ := h
  rw [← Array.getElem?_toList] at hi ⊢
  rw [← hmore, List.getElem?_append_left (List.getElem?_eq_some_iff.1 hi).1]
  exact hi

/-- What has been put behind the others for each of several definitions is found by counting. -/
theorem getElem?_of_added {R : β → α → Prop} {decls : List β} {added : List α}
    (h : after.toList = before.toList ++ added) (hR : List.Forall₂ R decls added) {k : Nat} {d : β}
    (hd : decls[k]? = some d) : ∃ a, after[before.size + k]? = some a ∧ R d a := by
  obtain ⟨hk, rfl⟩ := List.getElem?_eq_some_iff.1 hd
  have hk' : k < added.length := hR.length_eq ▸ hk
  refine ⟨added[k], ?_, hR.get hk hk'⟩
  rw [← Array.getElem?_toList, h, List.getElem?_append_right (by simp)]
  simp [hk']

end

/-- The type of a number is put in front of those that are compiled. -/
theorem Flat.type?_cons (id j : ComplexTypeId) (t : ComplexType)
    (types : List (ComplexTypeId × ComplexType)) (slots : Array Slot) :
    Flat.type? ⟨(id, t) :: types, slots⟩ j = if j = id then some t else types.lookup j := by
  unfold Flat.type?
  rw [List.lookup_cons]
  split <;> simp_all

/-- Types and slots that are compiled stay as they are, and new types have numbers of `free`. -/
structure Flat.Leads (free : List Nat) (flat flat' : Flat) : Prop where
  types : ∀ {id : ComplexTypeId} {t : ComplexType}, flat.type? id = some t → flat'.type? id = some t
  new : ∀ {id : ComplexTypeId}, flat.type? id = none → id ∉ free → flat'.type? id = none
  slots : flat.slots.toList <+: flat'.slots.toList

namespace Flat.Leads

variable {free free' : List Nat} {flat flat' flat'' : Flat}

theorem refl (free : List Nat) (flat : Flat) : flat.Leads free flat :=
  ⟨id, fun h _ => h, List.prefix_refl _⟩

theorem trans (h : flat.Leads free flat') (h' : flat'.Leads free flat'') : flat.Leads free flat'' :=
  ⟨fun ht => h'.types (h.types ht), fun hnone hfree => h'.new (h.new hnone hfree) hfree,
    h.slots.trans h'.slots⟩

theorem size_le (h : flat.Leads free flat') : flat.slots.size ≤ flat'.slots.size := by
  simpa using h.slots.length_le

theorem slot (h : flat.Leads free flat') {i : SlotId} {slot : Slot} (hi : flat.slots[i]? = some slot) :
    flat'.slots[i]? = some slot :=
  getElem?_of_prefix h.slots hi

theorem isSome (h : flat.Leads free flat') {id : ComplexTypeId} (hid : (flat.type? id).isSome) :
    (flat'.type? id).isSome := by
  obtain ⟨t, ht⟩ := Option.isSome_iff_exists.1 hid
  exact Option.isSome_of_eq_some (h.types ht)

end Flat.Leads

section

variable {names : Names} {d : ComplexTypeDef}

theorem prefix_of_addSlot {owner : String} {st st' : ComplexType × Array Slot} {d : SlotDef}
    (h : addSlot names owner st d = .ok st') : st.2.toList <+: st'.2.toList := by
  obtain ⟨alternates, -, h⟩ := exists_of_bind_eq_ok h
  obtain ⟨type, -, h⟩ := exists_of_bind_eq_ok h
  cases h
  simp

theorem prefix_of_addOwn {t : ComplexType} {slots : Array Slot} {st : ComplexType × Array Slot}
    (h : addOwn names d t slots = .ok st) : slots.toList <+: st.2.toList := by
  obtain ⟨t₁, -, h⟩ := exists_of_bind_eq_ok h
  obtain ⟨t₂, -, h⟩ := exists_of_bind_eq_ok h
  exact foldlM_induct (P := fun _ st => slots.toList <+: st.2.toList) h (List.prefix_refl _)
    fun _ _ _ _ hst hadd => hst.trans (prefix_of_addSlot hadd)

end

/-! ## The steps of a run -/

/-- Of some bases, those that have a type have been taken over. -/
def Passed (names : Names) (defs : List ComplexTypeDef) (owner : String) (bases : List String)
    (passed : List ComplexTypeId) : Prop :=
  ∀ name ∈ bases, ∃ base, lookup .complexType names.complex name owner = .ok base ∧
    (base < defs.length → base ∈ passed)

/-- What is kept when a type is begun, when it takes over a base, and when it adds what its definition
says. `I` is about all that is compiled, `J` about a type that is being compiled and has taken over some
bases so far. -/
structure Steps (names : Names) (defs : List ComplexTypeDef) (I : Flat → Prop)
    (J : Flat → ComplexTypeId → List ComplexTypeId → ComplexType → Prop) : Prop where
  bare : ∀ {flat : Flat} {id : ComplexTypeId} {d : ComplexTypeDef}, I flat → defs[id]? = some d →
    J flat id [] (.bare d)
  leads : ∀ {free : List Nat} {flat flat' : Flat} {id : ComplexTypeId} {passed : List ComplexTypeId}
    {t : ComplexType}, J flat id passed t → flat.Leads free flat' → J flat' id passed t
  inherit : ∀ {flat : Flat} {id base : ComplexTypeId} {d : ComplexTypeDef} {name : String}
    {passed : List ComplexTypeId} {t b : ComplexType}, I flat → J flat id passed t →
    defs[id]? = some d → name ∈ d.bases → lookup .complexType names.complex name d.name = .ok base →
    flat.type? base = some b → J flat id (passed ++ [base]) (t.inherit base b)
  own : ∀ {flat : Flat} {id : ComplexTypeId} {d : ComplexTypeDef} {passed : List ComplexTypeId}
    {t : ComplexType} {st : ComplexType × Array Slot}, I flat → J flat id passed t →
    defs[id]? = some d → flat.type? id = none → Passed names defs d.name d.bases passed →
    addOwn names d t flat.slots = .ok st → I ⟨(id, st.1) :: flat.types, st.2⟩

/-! ### Tables without gaps -/

section

variable {α : Type} {f : Nat → Option α} {n : Nat}

theorem length_filterMap_range (h : ∀ i < n, (f i).isSome) :
    ((List.range n).filterMap f).length = n := by
  rw [List.length_filterMap_eq_countP, List.countP_eq_length.2, List.length_range]
  exact fun i hi => h i (List.mem_range.1 hi)

theorem getElem?_filterMap_range (h : ∀ i < n, (f i).isSome) (i : Nat) :
    ((List.range n).filterMap f)[i]? = if i < n then f i else none := by
  induction n with
  | zero => simp
  | succ n ih =>
    have hbefore : ∀ i < n, (f i).isSome := fun i hi => h i (Nat.lt_succ_of_lt hi)
    obtain ⟨a, ha⟩ := Option.isSome_iff_exists.1 (h n (Nat.lt_succ_self n))
    rw [List.range_succ, List.filterMap_append, List.getElem?_append, length_filterMap_range hbefore,
      ih hbefore]
    by_cases hi : i < n
    · rw [if_pos hi, if_pos hi, if_pos (Nat.lt_succ_of_lt hi)]
    · obtain rfl | hgt := Nat.eq_or_lt_of_not_lt hi
      · simp [ha]
      · rw [if_neg hi, if_neg (by omega)]
        simp [ha]
        omega

end

namespace Steps

variable {names : Names} {defs : List ComplexTypeDef} {I : Flat → Prop}
  {J : Flat → ComplexTypeId → List ComplexTypeId → ComplexType → Prop}

/-- Compiling a type, and taking over bases, keeps what the steps keep. The induction is that of the two
routines; a type that is being compiled is not in `free`, so no base compiles it. -/
theorem run (h : Steps names defs I J) :
    (∀ free flat id flat', flatten names defs free flat id = .ok flat' → free.Nodup → I flat →
      I flat' ∧ flat.Leads free flat' ∧ (id < defs.length → (flat'.type? id).isSome)) ∧
    ∀ free flat owner t bases st, inheritAll names defs free flat owner t bases = .ok st → free.Nodup →
      ∀ id d before passed, defs[id]? = some d → d.name = owner → d.bases = before ++ bases →
      Passed names defs owner before passed → I flat → J flat id passed t →
      I st.1 ∧ flat.Leads free st.1 ∧ ∃ passed', J st.1 id passed' st.2 ∧
        Passed names defs owner d.bases passed' := by
  refine flatten.mutual_induct names defs
    (fun free flat id => ∀ flat', flatten names defs free flat id = .ok flat' → free.Nodup → I flat →
      I flat' ∧ flat.Leads free flat' ∧ (id < defs.length → (flat'.type? id).isSome))
    (fun free flat owner t bases => ∀ st, inheritAll names defs free flat owner t bases = .ok st →
      free.Nodup → ∀ id d before passed, defs[id]? = some d → d.name = owner →
      d.bases = before ++ bases → Passed names defs owner before passed → I flat → J flat id passed t →
      I st.1 ∧ flat.Leads free st.1 ∧ ∃ passed', J st.1 id passed' st.2 ∧
        Passed names defs owner d.bases passed')
    ?_ ?_ ?_ ?_ ?_ ?_ ?_ ?_ ?_ ?_
  · intro free flat id t ht flat' hrun hfree hflat
    rw [flatten, ht] at hrun
    cases hrun
    exact ⟨hflat, .refl free flat, fun _ => by rw [ht]; rfl⟩
  · intro free flat id hd ht flat' hrun hfree hflat
    rw [flatten, ht, hd] at hrun
    cases hrun
    exact ⟨hflat, .refl free flat, fun hid => absurd hid (by simpa using hd)⟩
  · intro free flat id d hd ht hmem fault hbases _ flat' hrun
    rw [flatten] at hrun
    simp [ht, hd, hmem, hbases] at hrun
  · intro free flat id d hd ht hmem flat₁ t₁ hbases fault hadd _ flat' hrun
    rw [flatten] at hrun
    simp [ht, hd, hmem, hbases, hadd] at hrun
  · intro free flat id d hd ht hmem flat₁ t₁ hbases t₂ slots hadd ih flat' hrun hfree hflat
    rw [flatten] at hrun
    simp only [ht, hd, hmem, dif_pos, hbases, hadd] at hrun
    cases hrun
    obtain ⟨hflat₁, hleads, passed, ht₁, hpassed⟩ := ih _ hbases (hfree.erase id) id d [] [] hd rfl rfl
      nofun hflat (h.bare hflat hd)
    have hnew : flat₁.type? id = none := hleads.new ht hfree.not_mem_erase
    refine ⟨h.own hflat₁ ht₁ hd hnew hpassed hadd, ⟨fun {j u} hj => ?_, fun {j} hj hj' => ?_, ?_⟩,
      fun _ => ?_⟩
    · rw [Flat.type?_cons, if_neg]
      · exact hleads.types hj
      · rintro rfl
        rw [ht] at hj
        cases hj
    · have hne : j ≠ id := fun heq => hj' (heq ▸ hmem)
      rw [Flat.type?_cons, if_neg hne]
      exact hleads.new hj fun hmem' => hj' (List.mem_of_mem_erase hmem')
    · exact hleads.slots.trans (prefix_of_addOwn hadd)
    · rw [Flat.type?_cons, if_pos rfl]
      rfl
  · intro free flat id d hd ht hmem flat' hrun
    rw [flatten] at hrun
    simp [ht, hd, hmem] at hrun
  · intro free flat owner t st hrun hfree id d before passed hd hname hsplit hpassed hflat ht
    rw [inheritAll] at hrun
    cases hrun
    rw [List.append_nil] at hsplit
    exact ⟨hflat, .refl free flat, passed, ht, hsplit ▸ hpassed⟩
  · intro free flat owner t name rest fault hlookup st hrun
    rw [inheritAll, hlookup] at hrun
    cases hrun
  · intro free flat owner t name rest base hlookup fault hflatten _ st hrun
    rw [inheritAll, hlookup] at hrun
    simp [hflatten] at hrun
  · intro free flat owner t name rest base hlookup flat₁ hflatten t₁ ih ihrest st hrun hfree id d before
      passed hd hname hsplit hpassed hflat ht
    rw [inheritAll, hlookup] at hrun
    simp only [hflatten] at hrun
    obtain ⟨hflat₁, hleads, hbase⟩ := ih flat₁ hflatten hfree hflat
    have hmem : name ∈ d.bases := by rw [hsplit]; simp
    have hrest : d.bases = (before ++ [name]) ++ rest := by rw [hsplit]; simp
    have hkept : ∀ {more}, (base < defs.length → base ∈ passed ++ more) →
        Passed names defs owner (before ++ [name]) (passed ++ more) := by
      intro more hmore other hother
      rcases List.mem_append.1 hother with hother | hother
      · obtain ⟨b, hb, hpassed⟩ := hpassed other hother
        exact ⟨b, hb, fun hlt => List.mem_append_left _ (hpassed hlt)⟩
      · rw [List.mem_singleton.1 hother]
        exact ⟨base, hlookup, hmore⟩
    have ht₁ : ∃ more, J flat₁ id (passed ++ more) t₁ ∧ (base < defs.length → base ∈ passed ++ more) := by
      unfold t₁
      split
      · rename_i b hb
        exact ⟨[base], h.inherit hflat₁ (h.leads ht hleads) hd hmem (hname ▸ hlookup) hb,
          fun _ => by simp⟩
      · rename_i hnone
        refine ⟨[], by rw [List.append_nil]; exact h.leads ht hleads, fun hlt => ?_⟩
        have hsome := hbase hlt
        rw [hnone] at hsome
        cases hsome
    obtain ⟨more, ht₁, hmore⟩ := ht₁
    obtain ⟨hst, hleads', hfinal⟩ := ihrest st hrun hfree id d (before ++ [name]) (passed ++ more) hd hname
      hrest (hkept hmore) hflat₁ ht₁
    exact ⟨hst, hleads.trans hleads', hfinal⟩

/-- A table of complex types keeps what the steps keep, and has one type for every definition. -/
theorem compileComplex {simple : List String} {compiled : Array ComplexType × Array Slot}
    (h : Steps ⟨simple, defs.map (·.name)⟩ defs I J) (start : I ⟨[], #[]⟩)
    (hrun : Schema.compileComplex simple defs = .ok compiled) :
    ∃ flat : Flat, I flat ∧ flat.slots = compiled.2 ∧ compiled.1.size = defs.length ∧
      ∀ id, compiled.1[id]? = flat.type? id := by
  obtain ⟨-, -, hrun⟩ := exists_of_bind_eq_ok hrun
  obtain ⟨flat, hflat, hrun⟩ := exists_of_bind_eq_ok hrun
  cases hrun
  have hfold := foldlM_induct (P := fun passed (flat : Flat) => I flat ∧
      Flat.Leads (List.range defs.length) ⟨[], #[]⟩ flat ∧
      ∀ id ∈ passed, id < defs.length → (flat.type? id).isSome) hflat
    ⟨start, .refl _ _, nofun⟩ ?_
  · obtain ⟨hI, hleads, hall⟩ := hfold
    have hsome : ∀ id < defs.length, (flat.type? id).isSome := fun id hid =>
      hall id (List.mem_range.2 hid) hid
    refine ⟨flat, hI, rfl, ?_, fun id => ?_⟩
    · rw [List.size_toArray, length_filterMap_range hsome]
    · rw [List.getElem?_toArray, getElem?_filterMap_range hsome]
      split
      · rfl
      · rename_i hid
        exact (hleads.new rfl (by simpa using hid)).symm
  · rintro passed id flat flat' ⟨hI, hleads, hall⟩ hstep
    obtain ⟨hI', hleads', hid⟩ := h.run.1 _ _ _ _ hstep List.nodup_range hI
    refine ⟨hI', hleads.trans hleads', fun j hj hlt => ?_⟩
    rcases List.mem_append.1 hj with hj | hj
    · exact hleads'.isSome (hall j hj hlt)
    · rw [List.mem_singleton.1 hj] at hlt ⊢
      exact hid hlt

end Steps

/-! ## All tables -/

theorem exists_of_ofDefinition {d : Definition} {s : Schema} (h : ofDefinition d = .ok s) :
    ∃ simple compiled rootType tables frameTypes,
      compileSimples d.simpleTypes = .ok simple ∧
      compileComplex (d.simpleTypes.map (·.name)) d.complexTypes = .ok compiled ∧
      lookup .complexType (d.complexTypes.map (·.name)) d.root.type "root" = .ok rootType ∧
      compileClasses (d.complexTypes.map (·.name)) compiled.1 d.frameClasses = .ok tables ∧
      compileFrameTypes (d.frameClasses.map (·.name)) (d.complexTypes.map (·.name)) tables d.frameTypes =
        .ok frameTypes ∧
      s = ⟨simple.toArray, compiled.1,
        compiled.2.push ⟨d.root.element, .desc, rootType, .empty, none, none⟩, tables.classes,
        tables.properties, frameTypes, compiled.2.size⟩ := by
  obtain ⟨simple, hsimple, h⟩ := exists_of_bind_eq_ok h
  obtain ⟨compiled, hcomplex, h⟩ := exists_of_bind_eq_ok h
  obtain ⟨rootType, hroot, h⟩ := exists_of_bind_eq_ok h
  obtain ⟨tables, htables, h⟩ := exists_of_bind_eq_ok h
  obtain ⟨frameTypes, hframes, h⟩ := exists_of_bind_eq_ok h
  cases h
  exact ⟨simple, compiled, rootType, tables, frameTypes, hsimple, hcomplex, hroot, htables, hframes, rfl⟩

end Schema
end UILayout
