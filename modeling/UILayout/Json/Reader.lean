import UILayout.Json.Token

/-!
# UILayout.Json.Reader

Reading a JSON text. One pass over the tokens keeps the arrays and objects that are still open; a
fault closes them all, each with the cause.
-/

namespace UILayout
namespace Json

/-- An array or object that is still open; its items stand last first. -/
inductive Frame where
  | array (items : List Json)
  | object (entries : List (Except JsonCause String × Json))
  /-- An object whose last key still waits for its value. -/
  | entry (entries : List (Except JsonCause String × Json)) (key : Except JsonCause String)

/-- What may come next inside the innermost open array or object. -/
inductive Expect where
  /-- A value, or the end when nothing was read yet. -/
  | first
  | colon
  | value
  | more
  /-- A value or key behind a comma. -/
  | afterComma

structure ReaderState where
  frames : List Frame
  expect : Expect

/-- The value that ends up outermost when the open frames end with `inner`. -/
def unwind (stop : JsonStop) : List Frame → Json → Json
  | [], inner => inner
  | .array items :: outer, inner =>
    unwind stop outer (.array (inner :: items).reverse (some ⟨stop.cause, false⟩))
  | .entry entries key :: outer, inner =>
    unwind stop outer (.object ((key, inner) :: entries).reverse (some ⟨stop.cause, false⟩))
  | .object _ :: outer, inner => unwind stop outer inner

/-- The value when reading ends for `stop` between the items of the innermost frame. -/
def abandon (stop : JsonStop) : List Frame → Json
  | [] => .broken stop.cause stop.cause stop.cause
  | .array items :: outer => unwind stop outer (.array items.reverse (some stop))
  | .object entries :: outer => unwind stop outer (.object entries.reverse (some stop))
  | .entry entries key :: outer =>
    unwind stop outer
      (.object ((key, .broken stop.cause stop.cause stop.cause) :: entries).reverse (some ⟨stop.cause, false⟩))

/-- The value when reading ends inside a value. -/
def breakOff (strict skipping opening : JsonCause) (frames : List Frame) : Json :=
  unwind ⟨skipping, false⟩ frames (.broken strict skipping opening)

/-- What reading comes to: it goes on, or the outermost value is complete or broken. -/
inductive Progress where
  | going (state : ReaderState)
  | complete (value : Json)
  | failed (value : Json)

/-- A value is complete: it becomes an item of the innermost frame. -/
def place (value : Json) : List Frame → Progress
  | [] => .complete value
  | .array items :: outer => .going ⟨.array (value :: items) :: outer, .more⟩
  | .entry entries key :: outer => .going ⟨.object ((key, value) :: entries) :: outer, .more⟩
  | .object entries :: outer => .going ⟨.object entries :: outer, .more⟩

/-- A token where a value must stand. -/
def onValue (frames : List Frame) : JsonToken → Progress
  | .openBrace => .going ⟨.object [] :: frames, .first⟩
  | .openBracket => .going ⟨.array [] :: frames, .first⟩
  | .null => place .null frames
  | .bool b => place (.bool b) frames
  | .number d => place (.number d) frames
  | .string s => place (.string s) frames
  | .cutString strict skipping => .failed (breakOff strict skipping strict frames)
  | .fault strict skipping => .failed (breakOff strict skipping .malformed frames)
  | _ => .failed (breakOff .malformed .malformed .malformed frames)

def advance (state : ReaderState) (token : JsonToken) : Progress :=
  let malformed (comma : Bool) := Progress.failed (abandon ⟨.malformed, comma⟩ state.frames)
  match state.expect, state.frames, token with
  | .colon, frames, .colon => .going ⟨frames, .value⟩
  | .colon, _, _ => malformed false
  | .first, .array items :: outer, .closeBracket => place (.array items.reverse none) outer
  | .more, .array items :: outer, .closeBracket => place (.array items.reverse none) outer
  | .first, .object entries :: outer, .closeBrace => place (.object entries.reverse none) outer
  | .more, .object entries :: outer, .closeBrace => place (.object entries.reverse none) outer
  | .more, frames, .comma => .going ⟨frames, .afterComma⟩
  | .more, _, _ => malformed false
  | .first, .object entries :: outer, .string key => .going ⟨.entry entries key :: outer, .colon⟩
  | .afterComma, .object entries :: outer, .string key => .going ⟨.entry entries key :: outer, .colon⟩
  | .first, .object entries :: outer, .cutString strict skipping =>
    .failed (unwind ⟨skipping, false⟩ outer
      (.object ((.error strict, .broken strict skipping strict) :: entries).reverse (some ⟨skipping, false⟩)))
  | .afterComma, .object entries :: outer, .cutString strict skipping =>
    .failed (unwind ⟨skipping, false⟩ outer
      (.object ((.error strict, .broken strict skipping strict) :: entries).reverse (some ⟨skipping, false⟩)))
  | .first, .object _ :: _, _ => malformed false
  | .afterComma, .object _ :: _, _ => malformed true
  | .afterComma, .array _ :: _, .closeBracket => malformed true
  | _, frames, token => onValue frames token

def onEnd (state : ReaderState) : Json :=
  match state.expect with
  | .value => breakOff .ended .ended .ended state.frames
  | .afterComma => abandon ⟨.ended, true⟩ state.frames
  | _ => abandon ⟨.ended, false⟩ state.frames

/-- The value that a token list spells, and whether tokens are left behind it. -/
def run (state : ReaderState) : List JsonToken → Json × Bool
  | [] => (onEnd state, false)
  | token :: rest =>
    match advance state token with
    | .going next => run next rest
    | .complete value => (value, !rest.isEmpty)
    | .failed value => (value, false)

/-- The value that a text spells as far as it can be read, and whether something follows it. -/
def ofText (text : List Char) : Json × Bool := run ⟨[], .value⟩ (JsonToken.scan text)

end Json
end UILayout
