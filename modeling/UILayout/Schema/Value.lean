import UILayout.Schema.Numeral
import UILayout.Schema.Table
import UILayout.Text.Split

/-!
# UILayout.Schema.Value

Testing attribute values against simple types.
-/

namespace UILayout
namespace Schema

open Text

/-- Why a value does not fit its simple type. -/
inductive ValueFault where
  | notMember (members : List String)
  | unknownFlag (flag : String)
  | patternMismatch
  | noUnionMember (types : List String)
  | notInteger
  | notNumber
  | notBoolean
  | notColor
  | outOfRange (least greatest : Int)
  deriving DecidableEq, Repr

/-- Names in quotes, with commas between them. -/
def quotedList (names : List String) : String :=
  String.intercalate ", " (names.map fun n => "\"" ++ n ++ "\"")

def ValueFault.message : ValueFault → String
  | .notMember members => "expected one of " ++ quotedList members
  | .unknownFlag flag => "unknown flag \"" ++ flag ++ "\""
  | .patternMismatch => "value does not match the required pattern"
  | .noUnionMember types => "value does not match any of " ++ quotedList types
  | .notInteger => "expected an integer"
  | .notNumber => "expected a number"
  | .notBoolean => "expected \"true\" or \"false\""
  | .notColor => "expected a color (r,g,b[,a] or hex digits)"
  | .outOfRange least greatest =>
    "value out of range [" ++ toString least ++ ", " ++ toString greatest ++ "]"

def isHexDigit (c : Char) : Bool :=
  c.isDigit || ('a' ≤ c && c ≤ 'f') || ('A' ≤ c && c ≤ 'F')

/-- A color component: a number up to 255, without a minus sign. -/
def isComponent (cs : List Char) : Bool :=
  let digits :=
    match cs with
    | '+' :: rest => rest
    | _ => cs
  (natural? digits).any (· ≤ 255)

/-- Three or four components with commas between them, or six or eight hexadecimal digits. -/
def isColor (value : List Char) : Bool :=
  let cs := trim value
  if cs.contains ',' then
    let parts := (splitOn ',' cs).map trim
    (parts.length = 3 || parts.length = 4) && parts.all isComponent
  else (cs.length = 6 || cs.length = 8) && cs.all isHexDigit

/-- Tests a value against a builtin; those that refer to something accept every text. -/
def checkBuiltin (value : List Char) (b : Builtin) : Except ValueFault Unit :=
  match b.intRange? with
  | some (least, greatest) =>
    match wideInteger? (trim value) with
    | none => .error .notInteger
    | some n =>
      if least ≤ n ∧ n ≤ greatest then .ok () else .error (.outOfRange least greatest)
  | none =>
    match b with
    | .real32 => if isNumber (trim value) then .ok () else .error .notNumber
    | .boolean =>
      let lower := value.map Char.toLower
      if lower = ['t', 'r', 'u', 'e'] ∨ lower = ['f', 'a', 'l', 's', 'e'] then .ok ()
      else .error .notBoolean
    | .color => if isColor value then .ok () else .error .notColor
    | _ => .ok ()

/-- Each part between bars must be a member. -/
def checkFlags (t : SimpleType) : List (List Char) → Except ValueFault Unit
  | [] => .ok ()
  | part :: rest =>
    let flag := String.ofList (trim part)
    if (t.member? flag).isSome then checkFlags t rest else .error (.unknownFlag flag)

/-- How far unions of unions are followed. -/
def unionDepth : Nat := 8

/-- Tests a value; at depth zero a union accepts every value. -/
def checkValueAt (s : Schema) (value : String) : Nat → SimpleTypeId → Except ValueFault Unit
  | depth, id =>
    match s.simpleTypes[id]? with
    | none => .ok ()
    | some t =>
      if t.nullable && value.isEmpty then .ok ()
      else
        match t.kind with
        | .enumeration =>
          if (t.member? value).isSome then .ok ()
          else .error (.notMember (t.members.values.map (·.name)))
        | .flags => checkFlags t (splitOn '|' value.toList)
        | .pattern =>
          if t.patterns.any (·.matchesIn value.toList) then .ok () else .error .patternMismatch
        | .union =>
          match depth with
          | 0 => .ok ()
          | d + 1 =>
            if t.union.any fun m => (checkValueAt s value d m).isOk then .ok ()
            else .error (.noUnionMember (t.union.filterMap fun m => s.simpleTypes[m]?.map (·.name)))
        | .default => checkBuiltin value.toList t.builtin

/-- Tests the text of an attribute value against a simple type. -/
def checkValue (s : Schema) (value : String) (id : SimpleTypeId) : Except ValueFault Unit :=
  checkValueAt s value unionDepth id

end Schema
end UILayout
