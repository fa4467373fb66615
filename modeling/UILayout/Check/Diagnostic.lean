import UILayout.Markup.Document
import UILayout.Selector.Fault

/-!
# UILayout.Check.Diagnostic

Diagnostics: what is shown to the author of a layout.
-/

namespace UILayout
namespace Check

open Text

inductive Severity where
  | error
  /-- The layout works as it is written. -/
  | message
  deriving DecidableEq, Repr

def Severity.level : Severity → Nat
  | .error => 1
  | .message => 3

/-- A second place that explains a diagnostic. -/
structure Related where
  document : DocumentId
  span : Span
  message : String
  deriving DecidableEq, Repr

structure Diagnostic where
  span : Span
  severity : Severity
  code? : Option String
  message : String
  related : List Related
  deriving DecidableEq, Repr

namespace Diagnostic

def error (span : Span) (message : String) : Diagnostic := ⟨span, .error, none, message, []⟩

def note (span : Span) (message : String) : Diagnostic := ⟨span, .message, none, message, []⟩

def withCode (d : Diagnostic) (code : String) : Diagnostic := { d with code? := some code }

def withRelated (d : Diagnostic) (r : Related) : Diagnostic := { d with related := d.related ++ [r] }

def isError (d : Diagnostic) : Bool := d.severity = .error

/-- What is wrong with a selector expression, with spans in the expression. -/
def ofProblem (p : Selector.Problem) : Diagnostic :=
  (error p.span p.fault.message).withCode p.fault.code.name

end Diagnostic

def errorCount (ds : List Diagnostic) : Nat := ds.countP (·.isError)

def hasErrors (ds : List Diagnostic) : Bool := 0 < errorCount ds

theorem hasErrors_iff (ds : List Diagnostic) : hasErrors ds = true ↔ ∃ d ∈ ds, d.isError := by
  simp [hasErrors, errorCount, List.countP_pos_iff]

end Check
end UILayout
