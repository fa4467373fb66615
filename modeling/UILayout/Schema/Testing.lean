import UILayout.Schema.Value

/-!
# UILayout.Schema.Testing

Testing a value with nothing from outside to bound it. A union asks its members one after the other until
one accepts the value, each one level deeper, and nothing keeps unions from being their own members; it is
the level that a union stands at which ends it. A test is known by the outcomes that it can end with: one
that does not end has none, and neither has one that comes to a number without a simple type.
-/

namespace UILayout
namespace Schema

open Text

/-- The value is empty, and need not be anything else. -/
def SimpleType.Skips (t : SimpleType) (value : String) : Prop := t.nullable = true ∧ value = ""

/-- The test of a type that asks no other one. -/
def SimpleType.test? (t : SimpleType) (value : String) : Option (Except ValueFault Unit) :=
  match t.kind with
  | .default => some (checkBuiltin value.toList t.builtin)
  | .enumeration =>
    some (if (t.member? value).isSome then .ok () else .error (.notMember (t.members.values.map (·.name))))
  | .flags => some (checkFlags t (splitOn '|' value.toList))
  | .pattern =>
    some (if t.patterns.any (·.matchesIn value.toList) then .ok () else .error .patternMismatch)
  | .union => none

mutual

/-- Tests a value against the simple type of a number, at a level. -/
inductive Tests (s : Schema) (value : String) :
    Nat → SimpleTypeId → Except ValueFault Unit → Prop where
  | skipped {level id t} (ht : s.simpleTypes[id]? = some t) (hskips : t.Skips value) :
      Tests s value level id (.ok ())
  | alone {level id t outcome} (ht : s.simpleTypes[id]? = some t) (hasked : ¬ t.Skips value)
      (htest : t.test? value = some outcome) : Tests s value level id outcome
  | deep {level id t} (ht : s.simpleTypes[id]? = some t) (hasked : ¬ t.Skips value)
      (hunion : t.kind = .union) (hdeep : unionDepth ≤ level) : Tests s value level id (.ok ())
  | found {level id t} (ht : s.simpleTypes[id]? = some t) (hasked : ¬ t.Skips value)
      (hunion : t.kind = .union) (hlevel : level < unionDepth)
      (hmembers : TestsMembers s value (level + 1) t.union true) : Tests s value level id (.ok ())
  | lost {level id t} (ht : s.simpleTypes[id]? = some t) (hasked : ¬ t.Skips value)
      (hunion : t.kind = .union) (hlevel : level < unionDepth)
      (hmembers : TestsMembers s value (level + 1) t.union false) :
      Tests s value level id
        (.error (.noUnionMember (t.union.filterMap fun m => s.simpleTypes[m]?.map (·.name))))

/-- Asks members one after the other, and tells whether one of them has accepted the value. -/
inductive TestsMembers (s : Schema) (value : String) : Nat → List SimpleTypeId → Bool → Prop where
  | nil {level} : TestsMembers s value level [] false
  | hit {level member rest} (hmember : Tests s value level member (.ok ())) :
      TestsMembers s value level (member :: rest) true
  | miss {level member rest fault found} (hmember : Tests s value level member (.error fault))
      (hrest : TestsMembers s value level rest found) :
      TestsMembers s value level (member :: rest) found

end

end Schema
end UILayout
