import Mathlib
import UILayout.Proofs.Schema.Closed
import UILayout.Schema.Testing

/-!
# UILayout.Proofs.Schema.Unions

Unions of simple types, which may be members of each other. A union accepts what one of the types accepts
that it leads to from member to member, whatever circles there are; the level at which it stops asking only
makes it accept more. It does so just where unions stand in each other deeper than that.

* `Joins`, `Nests`: the graph of unions and their members, and the chains of unions in it.
* `checkValueAt_eq_ok_iff`: what is accepted at a depth.
* `tests_iff`: a test ends, with one outcome.
* `union_accepts_iff`: what a type of a loaded schema accepts.
-/

namespace UILayout
namespace Schema

open Relation Text

/-! ## Unions and their members -/

/-- A simple type is a union, and another one is a member of it. -/
def Joins (s : Schema) (id member : SimpleTypeId) : Prop :=
  ∃ t, s.simpleTypes[id]? = some t ∧ t.kind = .union ∧ member ∈ t.union

/-- Unions from one on, each a member of the one before. -/
inductive Nests (s : Schema) : SimpleTypeId → List SimpleTypeId → Prop where
  | single {id t} (ht : s.simpleTypes[id]? = some t) (hunion : t.kind = .union) : Nests s id [id]
  | cons {id member chain} (hjoins : s.Joins id member) (hchain : Nests s member chain) :
      Nests s id (id :: chain)

/-- A value passes the test of a type that is no union. -/
def SimpleType.Holds (t : SimpleType) (value : String) : Prop :=
  match t.kind with
  | .default => checkBuiltin value.toList t.builtin = .ok ()
  | .enumeration => ∃ m, t.member? value = some m
  | .flags => ∀ part ∈ splitOn '|' value.toList, ∃ m, t.member? (String.ofList (trim part)) = some m
  | .pattern => ∃ p ∈ t.patterns, p.matchesIn value.toList = true
  | .union => False

/-- A type accepts a value by itself: as an empty one, or by a test in which no other type is asked. -/
def SimpleType.Takes (t : SimpleType) (value : String) : Prop := t.Skips value ∨ t.Holds value

/-- A type leads, from unions to their members, to one that accepts a value by itself. -/
def Reaches (s : Schema) (value : String) (id : SimpleTypeId) : Prop :=
  ∃ member t, ReflTransGen s.Joins id member ∧ s.simpleTypes[member]? = some t ∧ t.Takes value

section

variable {s : Schema} {value : String} {id member : SimpleTypeId} {t : SimpleType} {depth : Nat}

theorem not_holds_of_union (h : t.kind = .union) : ¬ t.Holds value := by
  rw [SimpleType.Holds, h]
  exact not_false

theorem skips_iff : (t.nullable && value.isEmpty) = true ↔ t.Skips value := by
  rw [SimpleType.Skips, Bool.and_eq_true, String.isEmpty_iff]

theorem checkFlags_eq_ok_iff {parts : List (List Char)} :
    checkFlags t parts = .ok () ↔ ∀ part ∈ parts, ∃ m, t.member? (String.ofList (trim part)) = some m := by
  induction parts with
  | nil => exact iff_of_true rfl nofun
  | cons part rest ih =>
    rw [checkFlags, List.forall_mem_cons, ← ih, ← Option.isSome_iff_exists]
    split
    · rename_i hmember
      rw [and_iff_right hmember]
    · rename_i hmember
      exact iff_of_false nofun fun h => hmember h.1

theorem test?_eq_ok_iff : t.test? value = some (.ok ()) ↔ t.Holds value := by
  unfold SimpleType.test? SimpleType.Holds
  cases t.kind with
  | default => exact Option.some_inj
  | enumeration => rw [Option.some_inj, ← Option.isSome_iff_exists]; split <;> simp_all
  | flags => rw [Option.some_inj, checkFlags_eq_ok_iff]
  | pattern => rw [Option.some_inj, ← List.any_eq_true]; split <;> simp_all
  | union => exact iff_of_false nofun id

theorem isSome_test?_iff : (t.test? value).isSome = true ↔ t.kind ≠ .union := by
  unfold SimpleType.test?
  cases t.kind <;> simp

theorem checkValueAt_of_skips (ht : s.simpleTypes[id]? = some t) (h : t.Skips value) (depth : Nat) :
    s.checkValueAt value depth id = .ok () := by
  cases depth <;> rw [checkValueAt] <;> simp only [ht, if_pos (skips_iff.2 h)]

theorem checkValueAt_of_test? {outcome : Except ValueFault Unit} (ht : s.simpleTypes[id]? = some t)
    (h : ¬ t.Skips value) (htest : t.test? value = some outcome) (depth : Nat) :
    s.checkValueAt value depth id = outcome := by
  unfold SimpleType.test? at htest
  cases depth <;> rw [checkValueAt] <;> simp only [ht, if_neg (mt skips_iff.1 h)] <;>
    cases hkind : t.kind <;> simp only [hkind] at htest ⊢ <;> cases htest <;> rfl

theorem checkValueAt_zero (ht : s.simpleTypes[id]? = some t) (hunion : t.kind = .union) :
    s.checkValueAt value 0 id = .ok () := by
  rw [checkValueAt]
  simp only [ht, hunion, ite_self]

theorem checkValueAt_succ (ht : s.simpleTypes[id]? = some t) (h : ¬ t.Skips value)
    (hunion : t.kind = .union) (depth : Nat) :
    s.checkValueAt value (depth + 1) id =
      if t.union.any fun m => (s.checkValueAt value depth m).isOk then .ok ()
      else .error (.noUnionMember (t.union.filterMap fun m => s.simpleTypes[m]?.map (·.name))) := by
  rw [checkValueAt]
  simp only [ht, hunion, if_neg (mt skips_iff.1 h)]

theorem joins_iff (ht : s.simpleTypes[id]? = some t) (hunion : t.kind = .union) :
    s.Joins id member ↔ member ∈ t.union := by
  constructor
  · rintro ⟨other, hother, -, hmember⟩
    rwa [Option.some_inj.1 (ht.symm.trans hother)]
  · exact fun hmember => ⟨t, ht, hunion, hmember⟩

theorem Joins.lt (hs : s.Closed) (h : s.Joins id member) : member < s.simpleTypes.size :=
  let ⟨t, ht, _, hmember⟩ := h
  hs.unions t (Array.mem_of_getElem? ht) member hmember

theorem isOk_iff {outcome : Except ValueFault Unit} : outcome.isOk = true ↔ outcome = .ok () := by
  cases outcome with
  | error fault => exact iff_of_false nofun nofun
  | ok u => exact iff_of_true rfl rfl

theorem checkValueAt_succ_eq_ok_iff (ht : s.simpleTypes[id]? = some t) (h : ¬ t.Skips value)
    (hunion : t.kind = .union) (depth : Nat) :
    s.checkValueAt value (depth + 1) id = .ok () ↔
      ∃ member, s.Joins id member ∧ s.checkValueAt value depth member = .ok () := by
  rw [checkValueAt_succ ht h hunion]
  simp only [joins_iff ht hunion, ← isOk_iff, ← List.any_eq_true]
  split
  · rename_i hfound
    exact iff_of_true rfl hfound
  · rename_i hlost
    exact iff_of_false nofun hlost

/-! ## What is accepted at a depth -/

/-- Unions stand in each other, from a type on, deeper than a depth. -/
def Deeper (s : Schema) (depth : Nat) (id : SimpleTypeId) : Prop :=
  ∃ chain, s.Nests id chain ∧ depth < chain.length

theorem deeper_zero (ht : s.simpleTypes[id]? = some t) (hunion : t.kind = .union) : s.Deeper 0 id :=
  ⟨[id], .single ht hunion, Nat.one_pos⟩

theorem deeper_succ_iff {depth : Nat} :
    s.Deeper (depth + 1) id ↔ ∃ member, s.Joins id member ∧ s.Deeper depth member := by
  constructor
  · rintro ⟨_, hchain, hlength⟩
    cases hchain with
    | single ht hunion => exact absurd hlength (by simp)
    | cons hjoins hchain => exact ⟨_, hjoins, _, hchain, Nat.lt_of_succ_lt_succ hlength⟩
  · rintro ⟨member, hjoins, chain, hchain, hlength⟩
    exact ⟨_, .cons hjoins hchain, Nat.succ_lt_succ hlength⟩

theorem Deeper.union (h : s.Deeper depth id) : ∃ t, s.simpleTypes[id]? = some t ∧ t.kind = .union := by
  obtain ⟨chain, hchain, -⟩ := h
  cases hchain with
  | single ht hunion => exact ⟨_, ht, hunion⟩
  | cons hjoins _ => exact ⟨hjoins.choose, hjoins.choose_spec.1, hjoins.choose_spec.2.1⟩

theorem reaches_iff (ht : s.simpleTypes[id]? = some t) :
    s.Reaches value id ↔ t.Takes value ∨ ∃ member, s.Joins id member ∧ s.Reaches value member := by
  constructor
  · rintro ⟨last, u, hpath, hu, htakes⟩
    rcases hpath.cases_head with rfl | ⟨member, hjoins, hpath⟩
    · exact .inl (by rwa [Option.some_inj.1 (ht.symm.trans hu)])
    · exact .inr ⟨member, hjoins, last, u, hpath, hu, htakes⟩
  · rintro (htakes | ⟨member, hjoins, last, u, hpath, hu, htakes⟩)
    · exact ⟨id, t, .refl, ht, htakes⟩
    · exact ⟨last, u, .head hjoins hpath, hu, htakes⟩

/-- A type that is no union leads to no other one, and unions do not stand in it. -/
theorem reaches_iff_of_kind_ne (ht : s.simpleTypes[id]? = some t) (hkind : t.kind ≠ .union) (depth : Nat) :
    s.Deeper depth id ∨ s.Reaches value id ↔ t.Takes value := by
  have hjoins : ∀ member, ¬ s.Joins id member := by
    rintro member ⟨u, hu, hunion, -⟩
    exact hkind (by rwa [Option.some_inj.1 (ht.symm.trans hu)])
  have hdeeper : ¬ s.Deeper depth id := fun h =>
    let ⟨u, hu, hunion⟩ := h.union
    hkind (by rwa [Option.some_inj.1 (ht.symm.trans hu)])
  rw [or_iff_right hdeeper, reaches_iff ht, or_iff_left]
  rintro ⟨member, h, -⟩
  exact hjoins member h

theorem checkValueAt_eq_ok_iff_of_kind_ne (ht : s.simpleTypes[id]? = some t) (hkind : t.kind ≠ .union)
    (depth : Nat) : s.checkValueAt value depth id = .ok () ↔ t.Takes value := by
  by_cases h : t.Skips value
  · exact iff_of_true (checkValueAt_of_skips ht h depth) (.inl h)
  · obtain ⟨outcome, htest⟩ := Option.isSome_iff_exists.1 (isSome_test?_iff.2 hkind)
    rw [checkValueAt_of_test? ht h htest depth, SimpleType.Takes, or_iff_right h, ← test?_eq_ok_iff, htest,
      Option.some_inj]

theorem checkValueAt_eq_ok_iff (hs : s.Closed) (hid : id < s.simpleTypes.size) (depth : Nat) :
    s.checkValueAt value depth id = .ok () ↔ s.Deeper depth id ∨ s.Reaches value id := by
  induction depth generalizing id with
  | zero =>
    obtain ⟨t, ht⟩ : ∃ t, s.simpleTypes[id]? = some t := ⟨_, Array.getElem?_eq_getElem hid⟩
    by_cases hunion : t.kind = .union
    · exact iff_of_true (checkValueAt_zero ht hunion) (.inl (deeper_zero ht hunion))
    · rw [checkValueAt_eq_ok_iff_of_kind_ne ht hunion, reaches_iff_of_kind_ne ht hunion]
  | succ depth ih =>
    obtain ⟨t, ht⟩ : ∃ t, s.simpleTypes[id]? = some t := ⟨_, Array.getElem?_eq_getElem hid⟩
    by_cases hunion : t.kind = .union
    · by_cases h : t.Skips value
      · exact iff_of_true (checkValueAt_of_skips ht h _) (.inr ((reaches_iff ht).2 (.inl (.inl h))))
      have hmembers : ∀ member, s.Joins id member ∧ s.checkValueAt value depth member = .ok () ↔
          s.Joins id member ∧ (s.Deeper depth member ∨ s.Reaches value member) :=
        fun member => and_congr_right fun hjoins => ih (hjoins.lt hs)
      have htakes : ¬ t.Takes value := not_or_intro h (not_holds_of_union hunion)
      rw [checkValueAt_succ_eq_ok_iff ht h hunion, deeper_succ_iff, reaches_iff ht, or_iff_right htakes]
      simp only [hmembers, and_or_left, exists_or]
    · rw [checkValueAt_eq_ok_iff_of_kind_ne ht hunion, reaches_iff_of_kind_ne ht hunion]

/-! ## A test ends -/

/-- Members are asked in turn up to the first one that accepts the value. -/
theorem testsMembers_iff {level : Nat} {members : List SimpleTypeId}
    {outcome : SimpleTypeId → Except ValueFault Unit}
    (h : ∀ m ∈ members, ∀ o, Tests s value level m o ↔ o = outcome m) (found : Bool) :
    TestsMembers s value level members found ↔ found = members.any fun m => (outcome m).isOk := by
  induction members with
  | nil =>
    constructor
    · rintro ⟨⟩
      rfl
    · rintro rfl
      exact .nil
  | cons member rest ih =>
    have hmember := h member List.mem_cons_self
    have hrest := ih fun m hm => h m (List.mem_cons_of_mem member hm)
    rw [List.any_cons]
    cases houtcome : outcome member with
    | ok u =>
      constructor
      · rintro (_ | ⟨-⟩ | ⟨hmiss, -⟩)
        · rfl
        · exact absurd ((hmember _).1 hmiss) (by rw [houtcome]; nofun)
      · rintro rfl
        exact .hit ((hmember _).2 houtcome.symm)
    | error fault =>
      constructor
      · rintro (_ | ⟨hhit⟩ | ⟨-, hfound⟩)
        · exact absurd ((hmember _).1 hhit) (by rw [houtcome]; nofun)
        · exact hrest.1 hfound
      · intro hfound
        exact .miss ((hmember _).2 houtcome.symm) (hrest.2 hfound)

/-- How a test ends, by what the type is and the level that it stands at. -/
theorem tests_cases {level : Nat} {outcome : Except ValueFault Unit} (ht : s.simpleTypes[id]? = some t)
    (h : Tests s value level id outcome) :
    t.Skips value ∧ outcome = .ok () ∨ ¬ t.Skips value ∧ (t.test? value = some outcome ∨
      t.kind = .union ∧ (unionDepth ≤ level ∧ outcome = .ok () ∨ level < unionDepth ∧
        ∃ found, TestsMembers s value (level + 1) t.union found ∧ outcome = if found then .ok () else
          .error (.noUnionMember (t.union.filterMap fun m => s.simpleTypes[m]?.map (·.name))))) := by
  cases h with
  | skipped hu hskips =>
    cases ht.symm.trans hu
    exact .inl ⟨hskips, rfl⟩
  | alone hu hasked htest =>
    cases ht.symm.trans hu
    exact .inr ⟨hasked, .inl htest⟩
  | deep hu hasked hunion hdeep =>
    cases ht.symm.trans hu
    exact .inr ⟨hasked, .inr ⟨hunion, .inl ⟨hdeep, rfl⟩⟩⟩
  | found hu hasked hunion hlevel hmembers =>
    cases ht.symm.trans hu
    exact .inr ⟨hasked, .inr ⟨hunion, .inr ⟨hlevel, true, hmembers, rfl⟩⟩⟩
  | lost hu hasked hunion hlevel hmembers =>
    cases ht.symm.trans hu
    exact .inr ⟨hasked, .inr ⟨hunion, .inr ⟨hlevel, false, hmembers, rfl⟩⟩⟩

theorem test?_of_union (h : t.kind = .union) : t.test? value = none := by
  rw [SimpleType.test?, h]

/-- A test that asks no other type, whatever the level. -/
theorem tests_iff_of_alone (ht : s.simpleTypes[id]? = some t) (h : t.Skips value ∨ t.kind ≠ .union)
    (level left : Nat) (outcome : Except ValueFault Unit) :
    Tests s value level id outcome ↔ outcome = s.checkValueAt value left id := by
  by_cases hskips : t.Skips value
  · rw [checkValueAt_of_skips ht hskips]
    constructor
    · intro htests
      rcases tests_cases ht htests with ⟨-, houtcome⟩ | ⟨hasked, -⟩
      · exact houtcome
      · exact absurd hskips hasked
    · rintro rfl
      exact .skipped ht hskips
  · have hkind := h.resolve_left hskips
    obtain ⟨found, htest⟩ := Option.isSome_iff_exists.1 (isSome_test?_iff.2 hkind)
    rw [checkValueAt_of_test? ht hskips htest]
    constructor
    · intro htests
      rcases tests_cases ht htests with ⟨h, -⟩ | ⟨-, h | ⟨hunion, -⟩⟩
      · exact absurd h hskips
      · exact Option.some_inj.1 (h.symm.trans htest)
      · exact absurd hunion hkind
    · rintro rfl
      exact .alone ht hskips htest

theorem tests_iff_of_deep {level : Nat} (ht : s.simpleTypes[id]? = some t) (h : ¬ t.Skips value)
    (hunion : t.kind = .union) (hdeep : unionDepth ≤ level) (outcome : Except ValueFault Unit) :
    Tests s value level id outcome ↔ outcome = .ok () := by
  constructor
  · intro htests
    rcases tests_cases ht htests with ⟨hskips, -⟩ | ⟨-, htest | ⟨-, ⟨-, houtcome⟩ | ⟨hlevel, -⟩⟩⟩
    · exact absurd hskips h
    · exact absurd (test?_of_union hunion ▸ htest) nofun
    · exact houtcome
    · exact absurd hdeep (Nat.not_le_of_lt hlevel)
  · rintro rfl
    exact .deep ht h hunion hdeep

theorem tests_iff_of_union {level : Nat} (ht : s.simpleTypes[id]? = some t) (h : ¬ t.Skips value)
    (hunion : t.kind = .union) (hlevel : level < unionDepth) (outcome : Except ValueFault Unit) :
    Tests s value level id outcome ↔
      ∃ found, TestsMembers s value (level + 1) t.union found ∧ outcome = if found then .ok () else
        .error (.noUnionMember (t.union.filterMap fun m => s.simpleTypes[m]?.map (·.name))) := by
  constructor
  · intro htests
    rcases tests_cases ht htests with ⟨hskips, -⟩ | ⟨-, htest | ⟨-, ⟨hdeep, -⟩ | ⟨-, hmembers⟩⟩⟩
    · exact absurd hskips h
    · exact absurd (test?_of_union hunion ▸ htest) nofun
    · exact absurd hdeep (Nat.not_le_of_lt hlevel)
    · exact hmembers
  · rintro ⟨found, hmembers, rfl⟩
    cases found with
    | false => exact .lost ht h hunion hlevel hmembers
    | true => exact .found ht h hunion hlevel hmembers

theorem tests_iff (hs : s.Closed) {level left : Nat} (hlevel : level + left = unionDepth)
    (hid : id < s.simpleTypes.size) (outcome : Except ValueFault Unit) :
    Tests s value level id outcome ↔ outcome = s.checkValueAt value left id := by
  induction left generalizing level id outcome with
  | zero =>
    obtain ⟨t, ht⟩ : ∃ t, s.simpleTypes[id]? = some t := ⟨_, Array.getElem?_eq_getElem hid⟩
    by_cases halone : t.Skips value ∨ t.kind ≠ .union
    · exact tests_iff_of_alone ht halone level 0 outcome
    obtain ⟨h, hunion⟩ := not_or.1 halone
    rw [not_ne_iff] at hunion
    have hdeep : unionDepth ≤ level := Nat.le_of_eq hlevel.symm
    rw [tests_iff_of_deep ht h hunion hdeep, checkValueAt_zero ht hunion]
  | succ left ih =>
    obtain ⟨t, ht⟩ : ∃ t, s.simpleTypes[id]? = some t := ⟨_, Array.getElem?_eq_getElem hid⟩
    by_cases halone : t.Skips value ∨ t.kind ≠ .union
    · exact tests_iff_of_alone ht halone level (left + 1) outcome
    obtain ⟨h, hunion⟩ := not_or.1 halone
    rw [not_ne_iff] at hunion
    have hmembers : ∀ found, TestsMembers s value (level + 1) t.union found ↔
        found = t.union.any fun m => (s.checkValueAt value left m).isOk :=
      testsMembers_iff fun m hm o => ih (by omega) (hs.unions t (Array.mem_of_getElem? ht) m hm) o
    rw [tests_iff_of_union ht h hunion (by omega), checkValueAt_succ ht h hunion]
    simp only [hmembers, exists_eq_left]

end

/-! ## What unions accept -/

/-- A test ends with one outcome. A type accepts exactly what is accepted by a type that it leads to, unless
more than eight unions stand in each other from it on: then it accepts every value. -/
theorem union_accepts_iff {d : Definition} {s : Schema} (h : ofDefinition d = .ok s) {id : SimpleTypeId}
    (hid : id < s.simpleTypes.size) (value : String) :
    (∀ outcome, Tests s value 0 id outcome ↔ outcome = s.checkValue value id) ∧
    (s.Reaches value id → s.checkValue value id = .ok ()) ∧
    ((∀ chain, s.Nests id chain → chain.length ≤ 8) →
      (s.checkValue value id = .ok () ↔ s.Reaches value id)) ∧
    ((∃ chain, s.Nests id chain ∧ 8 < chain.length) → s.checkValue value id = .ok ()) := by
  have hs := closed_of_ofDefinition h
  have haccepts : s.checkValue value id = .ok () ↔ s.Deeper 8 id ∨ s.Reaches value id :=
    checkValueAt_eq_ok_iff hs hid unionDepth
  refine ⟨tests_iff hs (Nat.zero_add unionDepth) hid, fun hreaches => haccepts.2 (.inr hreaches),
    fun hchains => ?_, fun hdeep => haccepts.2 (.inl hdeep)⟩
  rw [haccepts, or_iff_right]
  rintro ⟨chain, hchain, hlength⟩
  exact Nat.not_lt_of_le (hchains chain hchain) hlength

/-- Two unions, with members as told, and a type of numbers from -128 to 127. -/
def united (left right : List String) : Definition :=
  { root := ⟨"Root", "Base"⟩
    simpleTypes := [⟨"Left", .union, .string, false, none, [], [], left, none⟩,
      ⟨"Right", .union, .string, false, none, [], [], right, none⟩,
      ⟨"Number", .default, .int8, false, none, [], [], [], none⟩]
    complexTypes := [⟨"Base", [], ⟨false, false, false⟩, [], [], [], none, none⟩]
    frameClasses := []
    frameTypes := [] }

/-- The simple types of that definition, compiled. -/
def unitedTypes (left right : List SimpleTypeId) : Array SimpleType :=
  #[⟨"Left", .union, .string, false, none, .empty, [], left, none⟩,
    ⟨"Right", .union, .string, false, none, .empty, [], right, none⟩,
    ⟨"Number", .default, .int8, false, none, .empty, [], [], none⟩]

/-- Where unions end at numbers, a word is refused, and no type that they lead to takes it. -/
theorem union_accepts_iff_word : ∃ s, ofDefinition (united ["Right", "Number"] ["Number"]) = .ok s ∧
    0 < s.simpleTypes.size ∧ ¬ s.Reaches "wide" 0 ∧
    ∀ outcome, Tests s "wide" 0 0 outcome ↔ outcome = .error (.noUnionMember ["Right", "Number"]) := by
  have hrun : (ofDefinition (united ["Right", "Number"] ["Number"])).toOption.map (·.simpleTypes) =
      some (unitedTypes [1, 2] [2]) := by
    cbv
  obtain ⟨s, hs, htypes⟩ := Option.map_eq_some_iff.1 hrun
  have hsize : 0 < s.simpleTypes.size := htypes ▸ Nat.succ_pos 2
  have hnumber : checkBuiltin ['w', 'i', 'd', 'e'] .int8 = .error .notInteger := by cbv
  have hvalue : s.checkValue "wide" 0 = .error (.noUnionMember ["Right", "Number"]) := by
    simp [checkValue, unionDepth, checkValueAt, htypes, unitedTypes, hnumber, Except.isOk, Except.toBool]
  obtain ⟨htests, hreaches, -⟩ := union_accepts_iff (ok_of_toOption hs) hsize "wide"
  rw [hvalue] at htests hreaches
  refine ⟨s, ok_of_toOption hs, hsize, fun h => ?_, htests⟩
  cases hreaches h

end Schema
end UILayout
