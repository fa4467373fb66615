import UILayout.Proofs.Schema.Refused
import UILayout.Proofs.Schema.Unions

/-!
# UILayout.Proofs.Schema.Circles

Circles of unions. A union that is its own member is refused; for a longer way back to a union nothing looks,
so simple types are accepted with all such circles that a definition has. A union that leads into a circle
accepts every value, as its members stand in each other deeper than any level.

* `exists_compileSimples_iff`: the simple types that are accepted.
* `joins_iff_unionOf`: members in the definition and in what is compiled.
* `wellFounded_iff_no_circle`: without circles, members go down to the ground.
* `checkValue_of_circle`: what leads into a circle.
* `circles_of_ofDefinition`: which circles a loaded schema has, and which are refused.
-/

namespace UILayout
namespace Schema

open Relation

/-! ## The graph -/

/-- A simple type is a union, and names another one as a member. -/
def UnionOf (defs : List SimpleTypeDef) (id member : SimpleTypeId) : Prop :=
  ∃ t m, defs[id]? = some t ∧ defs[member]? = some m ∧ t.kind = .union ∧ m.name ∈ t.union

/-- What is asked of a simple type: patterns that can be read, members that have a definition, and not to be
its own member if it is a union. -/
structure SimpleTypeDef.Sound (names : List String) (d : SimpleTypeDef) : Prop where
  patterns : ∀ p ∈ d.patterns, ∃ compiled, Pattern.whole? p.toList = some compiled
  members : ∀ member ∈ d.union, member ∈ names
  apart : d.kind = .union → d.name ∉ d.union

/-- A simple type is what a definition says, as far as it is about members. -/
structure SimpleTypeDef.Gives (names : List String) (d : SimpleTypeDef) (t : SimpleType) : Prop where
  kind : t.kind = d.kind
  mem_union_iff : ∀ id, id ∈ t.union ↔ ∃ name ∈ d.union, names[id]? = some name

section

variable {names : List String} {d : SimpleTypeDef} {defs : List SimpleTypeDef} {types : List SimpleType}

theorem exists_compileSimple_iff : (∃ t, compileSimple names d = .ok t) ↔ d.Sound names := by
  constructor
  · rintro ⟨t, h⟩
    obtain ⟨compiled, hcompiled, h⟩ := exists_of_bind_eq_ok h
    obtain ⟨union, hunion, h⟩ := exists_of_bind_eq_ok h
    split at h
    · cases h
    · rename_i hapart
      refine ⟨fun p hp => ?_, fun member hmember => ?_, fun hkind hmem =>
        hapart ⟨hkind, by simpa using hmem⟩⟩
      · obtain ⟨found, -, hfound⟩ := exists_mem_of_mapM hcompiled hp
        split at hfound
        · exact ⟨_, ‹_›⟩
        · cases hfound
      · exact exists_lookup_iff.1 (exists_mapM_iff.1 ⟨union, hunion⟩ member hmember)
  · intro h
    have hapart : ¬ (d.kind = .union ∧ d.union.contains d.name = true) := fun hself =>
      h.apart hself.1 (by simpa using hself.2)
    unfold compileSimple
    refine exists_bind_eq_ok (exists_mapM_iff.2 fun p hp => ?_) fun compiled =>
      exists_bind_eq_ok (exists_mapM_iff.2 fun member hmember => ?_) fun union => ⟨_, if_neg hapart⟩
    · obtain ⟨found, hfound⟩ := h.patterns p hp
      exact ⟨found, by rw [hfound]⟩
    · exact exists_lookup_iff.2 (h.members member hmember)

/-- Simple types are accepted when names are not given twice and there is nothing wrong with any of them. -/
theorem exists_compileSimples_iff : (∃ types, compileSimples defs = .ok types) ↔
    (defs.map (·.name)).Nodup ∧ ∀ d ∈ defs, d.Sound (defs.map (·.name)) := by
  constructor
  · rintro ⟨types, h⟩
    obtain ⟨⟨⟩, hnames, h⟩ := exists_of_bind_eq_ok h
    exact ⟨(nodup_of_checkNames hnames).1, fun d hd =>
      exists_compileSimple_iff.1 (exists_mapM_iff.1 ⟨types, h⟩ d hd)⟩
  · rintro ⟨hnames, hall⟩
    have hunique : checkNames .simpleType [] (defs.map (·.name)) = .ok () :=
      checkNames_eq_ok_iff.2 ⟨hnames, fun _ _ => List.not_mem_nil⟩
    exact exists_bind_eq_ok ⟨(), hunique⟩ fun _ =>
      exists_mapM_iff.2 fun d hd => exists_compileSimple_iff.2 (hall d hd)

theorem gives_of_compileSimple {t : SimpleType} (hnames : names.Nodup)
    (h : compileSimple names d = .ok t) : d.Gives names t := by
  obtain ⟨compiled, -, h⟩ := exists_of_bind_eq_ok h
  obtain ⟨union, hunion, h⟩ := exists_of_bind_eq_ok h
  split at h
  · cases h
  · cases h
    refine ⟨rfl, fun id => ⟨fun hid => ?_, ?_⟩⟩
    · obtain ⟨name, hname, hlookup⟩ := (mapM_spec hunion).2 id hid
      exact ⟨name, hname, getElem?_of_lookup hlookup⟩
    · rintro ⟨name, hname, hid⟩
      obtain ⟨id', hid', hlookup⟩ := exists_mem_of_mapM hunion hname
      rw [lookup_of_getElem? .simpleType d.name hnames hid] at hlookup
      rwa [Except.ok.inj hlookup]

end

/-- Members that are compiled are those that the definition names. -/
theorem joins_iff_unionOf {d : Definition} {s : Schema} (h : ofDefinition d = .ok s)
    {id member : SimpleTypeId} : s.Joins id member ↔ UnionOf d.simpleTypes id member := by
  obtain ⟨types, _, _, _, _, htypes, -, -, -, -, rfl⟩ := exists_of_ofDefinition h
  have hnames := (exists_compileSimples_iff.1 ⟨types, htypes⟩).1
  obtain ⟨-, -, htypes⟩ := exists_of_bind_eq_ok htypes
  have hall := (forall₂_of_mapM htypes).imp fun _ _ => gives_of_compileSimple hnames
  have hnamed : ∀ name, (d.simpleTypes.map (·.name))[member]? = some name ↔
      ∃ m, d.simpleTypes[member]? = some m ∧ m.name = name := fun name => by
    rw [List.getElem?_map, Option.map_eq_some_iff]
  constructor
  · rintro ⟨t, ht, hunion, hmember⟩
    rw [List.getElem?_toArray] at ht
    obtain ⟨u, hu, hgives⟩ := exists_getElem?_of_forall₂ hall.flip ht
    obtain ⟨name, hname, hid⟩ := (hgives.mem_union_iff member).1 hmember
    obtain ⟨m, hm, rfl⟩ := (hnamed name).1 hid
    exact ⟨u, m, hu, hm, hgives.kind.symm.trans hunion, hname⟩
  · rintro ⟨u, m, hu, hm, hunion, hname⟩
    obtain ⟨t, ht, hgives⟩ := exists_getElem?_of_forall₂ hall hu
    refine ⟨t, by rwa [List.getElem?_toArray], hgives.kind.trans hunion, ?_⟩
    exact (hgives.mem_union_iff member).2 ⟨m.name, hname, (hnamed m.name).2 ⟨m, hm, rfl⟩⟩

/-! ## Ways back -/

/-- A union leads into a circle of unions, or stands in one. -/
def Circles (s : Schema) (id : SimpleTypeId) : Prop :=
  ∃ member, ReflTransGen s.Joins id member ∧ TransGen s.Joins member member

section

variable {s : Schema} {id : SimpleTypeId} {n : Nat} {r : Nat → Nat → Prop}

theorem Circles.exists_joins (h : s.Circles id) : ∃ member, s.Joins id member ∧ s.Circles member := by
  obtain ⟨last, hpath, hcircle⟩ := h
  rcases hpath.cases_head with rfl | ⟨member, hjoins, hpath⟩
  · obtain ⟨member, hjoins, hback⟩ := TransGen.head'_iff.1 hcircle
    exact ⟨member, hjoins, id, hback, hcircle⟩
  · exact ⟨member, hjoins, last, hpath, hcircle⟩

/-- What leads into a circle goes deeper than any level. -/
theorem Circles.deeper (h : s.Circles id) (depth : Nat) : s.Deeper depth id := by
  induction depth generalizing id with
  | zero =>
    obtain ⟨member, ⟨t, ht, hunion, -⟩, -⟩ := h.exists_joins
    exact deeper_zero ht hunion
  | succ depth ih =>
    obtain ⟨member, hjoins, hmember⟩ := h.exists_joins
    exact deeper_succ_iff.2 ⟨member, hjoins, ih hmember⟩

theorem Circles.lt (h : s.Circles id) : id < s.simpleTypes.size := by
  obtain ⟨_, ⟨t, ht, -, -⟩, -⟩ := h.exists_joins
  exact (Array.getElem?_eq_some_iff.1 ht).1

theorem checkValue_of_circle (hs : s.Closed) (h : s.Circles id) (value : String) :
    s.checkValue value id = .ok () :=
  (checkValueAt_eq_ok_iff hs h.lt unionDepth).2 (.inl (h.deeper unionDepth))

/-- Among finitely many, what has no way back to itself goes down to the ground. -/
theorem wellFounded_iff_no_circle (hlt : ∀ a b, r a b → b < n) :
    WellFounded (fun b a => r a b) ↔ ∀ a, ¬ TransGen r a a := by
  constructor
  · exact fun hwf a => not_transGen_self (hwf.apply a)
  · intro hnone
    let below (b a : Fin n) : Prop := TransGen r a b
    have htrans : IsTrans _ below := ⟨fun a b c hab hbc => hbc.trans hab⟩
    have hirrefl : Std.Irrefl below := ⟨fun a => hnone a⟩
    have hwf := Finite.wellFounded_of_trans_of_irrefl below
    have hacc : ∀ a : Fin n, Acc (fun b a => r a b) (a : Nat) := by
      intro a
      induction a using hwf.induction with
      | _ a ih => exact ⟨_, fun b hb => ih ⟨b, hlt a b hb⟩ (.single hb)⟩
    exact ⟨fun a => ⟨a, fun b hb => hacc ⟨b, hlt a b hb⟩⟩⟩

end

/-- A loaded schema has just the circles of unions that its definition has, so members go down to the ground
when there are none; and none is left where a union is its own member, which is refused. Nothing else is
refused for a circle of simple types. What leads into a circle accepts every value. -/
theorem circles_of_ofDefinition (d : Definition) :
    (∀ s, ofDefinition d = .ok s →
      (∀ id member, s.Joins id member ↔ UnionOf d.simpleTypes id member) ∧
      (∀ id, ¬ s.Joins id id) ∧
      (WellFounded (fun member id => s.Joins id member) ↔
        ∀ id, ¬ TransGen (UnionOf d.simpleTypes) id id) ∧
      ∀ id, s.Circles id → ∀ value, s.checkValue value id = .ok ()) ∧
    ((∃ types, compileSimples d.simpleTypes = .ok types) ↔ (d.simpleTypes.map (·.name)).Nodup ∧
      ∀ t ∈ d.simpleTypes, t.Sound (d.simpleTypes.map (·.name))) ∧
    ∀ name, ofDefinition d = .error (.cycle .simpleType name) →
      ∃ id t, d.simpleTypes[id]? = some t ∧ t.name = name ∧ UnionOf d.simpleTypes id id := by
  refine ⟨fun s h => ?_, exists_compileSimples_iff, fun name h => ?_⟩
  · have hs := closed_of_ofDefinition h
    have hsame : s.Joins = UnionOf d.simpleTypes :=
      funext₂ fun id member => propext (joins_iff_unionOf h)
    obtain ⟨types, _, _, _, _, htypes, -⟩ := exists_of_ofDefinition h
    refine ⟨fun id member => joins_iff_unionOf h, fun id => ?_, ?_, fun id => checkValue_of_circle hs⟩
    · rw [hsame]
      rintro ⟨t, m, ht, hm, hunion, hname⟩
      cases ht.symm.trans hm
      exact ((exists_compileSimples_iff.1 ⟨types, htypes⟩).2 t (List.mem_of_getElem? ht)).apart hunion hname
    · rw [wellFounded_iff_no_circle fun a b (hjoins : s.Joins a b) => hjoins.lt hs, hsame]
  · rcases of_ofDefinition_eq_error h with hsingle | ⟨t, hsame, ht, hunion, hself⟩ | ⟨_, _, _, hother, _⟩ |
      ⟨_, _, _, _, hother, _⟩ | ⟨_, _, _, hother, _⟩
    · exact hsingle.elim
    · cases hsame
      obtain ⟨id, hid⟩ := List.mem_iff_getElem?.1 ht
      exact ⟨id, t, hid, rfl, t, t, hid, hid, hunion, hself⟩
    · cases hother
    · cases hother
    · cases hother

/-- Two unions, each the member of the other one, load. -/
theorem joins_of_circle : ∃ s, ofDefinition (united ["Right"] ["Left"]) = .ok s ∧
    s.Joins 0 1 ∧ s.Joins 1 0 := by
  have hrun : (ofDefinition (united ["Right"] ["Left"])).toOption.map (·.simpleTypes) =
      some (unitedTypes [1] [0]) := by
    cbv
  obtain ⟨s, hs, htypes⟩ := Option.map_eq_some_iff.1 hrun
  have hleft : s.simpleTypes[0]? = (unitedTypes [1] [0])[0]? := by rw [htypes]
  have hright : s.simpleTypes[1]? = (unitedTypes [1] [0])[1]? := by rw [htypes]
  exact ⟨s, ok_of_toOption hs, (joins_iff hleft rfl).2 List.mem_cons_self,
    (joins_iff hright rfl).2 List.mem_cons_self⟩

/-- Either one accepts every value, though neither leads to a type that accepts anything by itself. -/
theorem circles_of_ofDefinition_circle : ∃ s, ofDefinition (united ["Right"] ["Left"]) = .ok s ∧
    s.Circles 0 ∧ ∀ value, s.checkValue value 0 = .ok () := by
  obtain ⟨s, hs, hleft, hright⟩ := joins_of_circle
  have hcircle : s.Circles 0 := ⟨0, .refl, .head hleft (.single hright)⟩
  exact ⟨s, hs, hcircle, ((circles_of_ofDefinition _).1 s hs).2.2.2 0 hcircle⟩

/-- A union is accepted that is a member of its own member. -/
theorem circle_of_unions_accepted : ∃ s, ofDefinition (united ["Right"] ["Left"]) = .ok s ∧
    TransGen s.Joins 0 0 := by
  obtain ⟨s, hs, hleft, hright⟩ := joins_of_circle
  exact ⟨s, hs, .head hleft (.single hright)⟩

end Schema
end UILayout
