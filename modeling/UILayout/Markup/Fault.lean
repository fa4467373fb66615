/-!
# UILayout.Markup.Fault

Why a text is no layout document. A fault inside a tag tells byte positions of the tag's content,
which starts behind the `<`; one inside an attribute value, positions of the raw value.
-/

namespace UILayout
namespace Markup

/-- Why a numeric reference names no character. -/
inductive CodeFault where
  | sign
  | empty
  | invalidDigit
  | tooLarge
  | invalidCode (code : Nat)
  | nul
  deriving DecidableEq, Repr

def CodeFault.message : CodeFault → String
  | .sign => "unexpected number sign"
  | .empty => "cannot parse integer from empty string"
  | .invalidDigit => "invalid digit found in string"
  | .tooLarge => "number too large to fit in target type"
  | .invalidCode code => "`" ++ toString code ++ "` is not a valid codepoint"
  | .nul => "0x0 character is not permitted in XML"

inductive Fault where
  | tagNotClosed
  | unknownMarkup
  | commentNotClosed
  | charactersNotClosed
  | doctypeNotClosed
  | doctypeWithoutName
  | instructionNotClosed
  | mismatchedEnd (expected found : String)
  | unmatchedEnd (found : String)
  | keyWithoutEquals (position : Nat)
  | duplicateKey (position previous : Nat)
  | missingValue (position : Nat)
  | unquotedValue (position : Nat)
  | missingQuote (position : Nat) (quote : Char)
  | unterminatedReference (position length : Nat)
  | unknownReference (start stop : Nat) (name : String)
  | invalidCode (cause : CodeFault)
  deriving DecidableEq, Repr

def Fault.message : Fault → String
  | .tagNotClosed => "syntax error: tag not closed: `>` not found before end of input"
  | .unknownMarkup => "syntax error: unknown or missed symbol in markup"
  | .commentNotClosed => "syntax error: comment not closed: `-->` not found before end of input"
  | .charactersNotClosed => "syntax error: CDATA not closed: `]]>` not found before end of input"
  | .doctypeNotClosed => "syntax error: DOCTYPE not closed: `>` not found before end of input"
  | .doctypeWithoutName =>
    "ill-formed document: `<!DOCTYPE>` declaration does not contain a name of a document type"
  | .instructionNotClosed =>
    "syntax error: processing instruction or xml declaration not closed: " ++
      "`?>` not found before end of input"
  | .mismatchedEnd expected found =>
    "ill-formed document: expected `</" ++ expected ++ ">`, but `</" ++ found ++ ">` was found"
  | .unmatchedEnd found =>
    "ill-formed document: close tag `</" ++ found ++ ">` does not match any open tag"
  | .keyWithoutEquals position =>
    "position " ++ toString position ++
      ": attribute key must be directly followed by `=` or space"
  | .duplicateKey position previous =>
    "position " ++ toString position ++
      ": duplicated attribute, previous declaration at position " ++ toString previous
  | .missingValue position =>
    "position " ++ toString position ++ ": `=` must be followed by an attribute value"
  | .unquotedValue position =>
    "position " ++ toString position ++ ": attribute value must be enclosed in `\"` or `'`"
  | .missingQuote position quote =>
    "position " ++ toString position ++ ": missing closing quote `" ++ String.singleton quote ++
      "` in attribute value"
  | .unterminatedReference position length =>
    "Error while escaping character at range " ++ toString position ++ ".." ++ toString length ++
      ": Cannot find ';' after '&'"
  | .unknownReference start stop name =>
    "at " ++ toString start ++ ".." ++ toString stop ++ ": unrecognized entity `" ++ name ++ "`"
  | .invalidCode cause => "invalid character reference: " ++ cause.message

/-- A fault and the byte offset at which it is reported. -/
structure Failure where
  offset : Nat
  fault : Fault
  deriving DecidableEq, Repr

def Failure.message (f : Failure) : String :=
  "XML syntax error at offset " ++ toString f.offset ++ ": " ++ f.fault.message

end Markup
end UILayout
