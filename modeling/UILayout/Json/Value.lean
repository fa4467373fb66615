import UILayout.Json.Number

/-!
# UILayout.Json.Value

JSON values as far as they could be read. Reading never fails: where a text stops being JSON, the
value holds `broken` there, or an array or object remembers why it has no end. A decoder walks the
value in the order of the text, so of two faults it meets the one that stands first.
-/

namespace UILayout

/-- Why a text is no JSON: it ends too early, or it is malformed. -/
inductive JsonCause where
  | ended
  | malformed
  deriving DecidableEq, Repr

/-- Why an array or object is not closed. -/
structure JsonStop where
  cause : JsonCause
  /-- Whether a comma came last. -/
  afterComma : Bool
  deriving DecidableEq, Repr

inductive Json where
  | null
  | bool (value : Bool)
  | number (value : Decimal)
  /-- A string, or what is wrong with the characters that its escapes spell. -/
  | string (value : Except JsonCause String)
  | array (items : List Json) (stop? : Option JsonStop)
  | object (entries : List (Except JsonCause String × Json)) (stop? : Option JsonStop)
  /-- No value: the cause for a reader who wants its characters, for one who skips it, and for one
  who looks at its first character only. -/
  | broken (strict skipping opening : JsonCause)

namespace Json

/-- The first entry of a name, in a value that was read to its end. -/
def field? (name : String) : Json → Option Json
  | .object entries _ =>
    (entries.find? fun e => match e.1 with
      | .ok key => key = name
      | .error _ => false).map (·.2)
  | _ => none

end Json

end UILayout
