import UILayout.Selector.Path
import UILayout.Text.Identifier

/-!
# UILayout.Markup.Value

How an attribute value is written. A value is a constant, a constant that may have one form per
race, a property bind, or plain text, and the first characters decide which.
-/

namespace UILayout
namespace Markup

open Text

inductive ValueForm where
  /-- A literal or a path. -/
  | plain
  /-- `$Name` -/
  | constant
  /-- `#Name` -/
  | racialConstant
  /-- `$path.Property` -/
  | bind
  deriving DecidableEq, Repr

namespace ValueForm

/-- Is there a dot outside brackets? `depth` brackets are open; one too many closes none. -/
def hasOpenDot (depth : Nat) : List Char → Bool
  | [] => false
  | c :: cs =>
    if c = '[' then hasOpenDot (depth + 1) cs
    else if c = ']' then hasOpenDot (depth - 1) cs
    else if c = '.' ∧ depth = 0 then true
    else hasOpenDot depth cs

def ofText (value : List Char) : ValueForm :=
  match value with
  | '#' :: name => if isIdentifier name then .racialConstant else .plain
  | '$' :: name =>
    if hasOpenDot 0 value then .bind
    else if isIdentifier name && !Selector.Step.isKeyword (String.ofList name) then .constant
    else .plain
  | _ => .plain

end ValueForm

end Markup
end UILayout
