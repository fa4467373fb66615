import UILayout.Selector.Path
import UILayout.Selector.Token

/-!
# UILayout.Selector.Grammar

Reading selector expressions. No step contains a slash, and no path a dot, so a path is read by
cutting its tokens at the slashes and reading each segment by itself: a fault in one segment costs
no other segment its step.

    path     := (fragment ('/' fragment)*)?
    fragment := Ident | Handle | $this | $parent | $root | $layer
              | $sibling '-' Ident
              | $ancestor ('[' param (',' param)* ']')?
    param    := '@'? Ident '=' Ident
    bind     := path '.' Ident

* `length_param_rest`: a parameter takes at least one token, so a parameter list ends.
-/

namespace UILayout
namespace Selector

open Text

/-- Where a token is missed: at the token that stands there instead, else at the end of the text. -/
structure Missing where
  /-- The separator behind the segment. -/
  next? : Option Token
  length : Nat

def Missing.span (m : Missing) : List Token → Span
  | t :: _ => t.span
  | [] => (m.next?.map (·.span)).getD (Span.point m.length)

/-- What reading a segment gives: its step if there is one, the faults found, what was not read. -/
structure Reading (α : Type) where
  result? : Option α
  problems : List Problem
  rest : List Token

namespace Grammar

/-- The first token of kind `ident`. -/
def ident? : List Token → Option (Ident × List Token)
  | t :: rest => if t.kind = .ident then some (⟨t.text, t.span⟩, rest) else none
  | [] => none

/-- The `@` before a parameter means nothing. -/
def dropAt : List Token → List Token
  | t :: rest => if t.kind = .atSign then rest else t :: rest
  | [] => []

/-- One `key=value`, and what follows it. -/
def param (m : Missing) (tokens : List Token) : Except Problem (Param × List Token) :=
  match ident? (dropAt tokens) with
  | none => .error ⟨.missingParamName, m.span (dropAt tokens)⟩
  | some (key, afterKey) =>
    match afterKey with
    | [] => .error ⟨.missingEquals, .point key.span.stop⟩
    | eq :: afterEq =>
      if eq.kind = .equals then
        match ident? afterEq with
        | none => .error ⟨.missingParamValue, m.span afterEq⟩
        | some (value, rest) =>
          .ok (⟨key, value, ⟨(m.span tokens).start, value.span.stop⟩⟩, rest)
      else .error ⟨.missingEquals, .point key.span.stop⟩

theorem length_ident?_rest {tokens rest : List Token} {i : Ident}
    (h : ident? tokens = some (i, rest)) : rest.length < tokens.length := by
  cases tokens with
  | nil => simp [ident?] at h
  | cons t ts =>
    simp only [ident?] at h
    split at h
    · cases h
      simp
    · cases h

theorem length_dropAt (tokens : List Token) : (dropAt tokens).length ≤ tokens.length := by
  cases tokens with
  | nil => simp [dropAt]
  | cons t ts =>
    simp only [dropAt]
    split <;> simp

theorem length_param_rest {m : Missing} {tokens rest : List Token} {p : Param}
    (h : param m tokens = .ok (p, rest)) : rest.length < tokens.length := by
  unfold param at h
  split at h
  · cases h
  · rename_i key afterKey hkey
    have hk := length_ident?_rest hkey
    have hd := length_dropAt tokens
    split at h
    · cases h
    · split at h
      · split at h
        · cases h
        · rename_i value rest' hvalue
          have hv := length_ident?_rest hvalue
          cases h
          simp only [List.length_cons] at hk
          omega
      · cases h

/-- A key that names no filter is reported, and kept. -/
def keyProblems (p : Param) : List Problem :=
  if p.filter?.isNone then [⟨.unknownParam p.key.text, p.key.span⟩] else []

/-- The parameters behind the bracket that stands at `opening`, up to the closing bracket. -/
def params (m : Missing) (opening : Span) (tokens : List Token) : Reading (List Param) :=
  match h : param m tokens with
  | .error problem => ⟨none, [problem], []⟩
  | .ok (p, []) => ⟨none, keyProblems p ++ [⟨.unclosedBracket, opening⟩], []⟩
  | .ok (p, t :: rest) =>
    if t.kind = .comma then
      let more := params m opening rest
      ⟨more.result?.map (p :: ·), keyProblems p ++ more.problems, more.rest⟩
    else if t.kind = .closeBracket then ⟨some [p], keyProblems p, rest⟩
    else ⟨none, keyProblems p ++ [⟨.unclosedBracket, opening⟩], []⟩
  termination_by tokens.length
  decreasing_by
    have := length_param_rest h
    simp only [List.length_cons] at this
    omega

/-- The dash and the name behind `$sibling`. -/
def sibling (keyword : Token) : List Token → Reading Fragment
  | dash :: rest =>
    if dash.kind = .minus then
      match ident? rest with
      | some (name, rest') => ⟨some ⟨.sibling name, ⟨keyword.span.start, name.span.stop⟩⟩, [], rest'⟩
      | none => ⟨none, [⟨.missingSiblingName, .point dash.span.stop⟩], []⟩
    else ⟨none, [⟨.missingSiblingDash, keyword.span⟩], []⟩
  | [] => ⟨none, [⟨.missingSiblingDash, keyword.span⟩], []⟩

/-- The tokens that `rest` leaves of `tokens` end where the last of the others does. -/
def consumedEnd (start : Nat) (tokens rest : List Token) : Nat :=
  ((tokens.take (tokens.length - rest.length)).getLast?.map (·.span.stop)).getD start

/-- The parameter list behind `$ancestor`, if there is one. -/
def ancestor (m : Missing) (keyword : Token) : List Token → Reading Fragment
  | [] => ⟨some ⟨.ancestor [], keyword.span⟩, [], []⟩
  | t :: rest =>
    if t.kind = .openBracket then
      let ps := params m t.span rest
      ⟨ps.result?.map fun list =>
          ⟨.ancestor list, ⟨keyword.span.start, consumedEnd keyword.span.stop rest ps.rest⟩⟩,
        ps.problems, ps.rest⟩
    else ⟨some ⟨.ancestor [], keyword.span⟩, [], t :: rest⟩

/-- The step that a segment starts with. -/
def fragment (m : Missing) (t : Token) (rest : List Token) : Reading Fragment :=
  match t.kind with
  | .ident => ⟨some ⟨.child ⟨t.text, t.span⟩, t.span⟩, [], rest⟩
  | .handle =>
    ⟨some ⟨.handle ⟨String.ofList (t.text.toList.drop 1), ⟨t.span.start + 1, t.span.stop⟩⟩, t.span⟩,
      [], rest⟩
  | .this => ⟨some ⟨.this, t.span⟩, [], rest⟩
  | .parent => ⟨some ⟨.parent, t.span⟩, [], rest⟩
  | .root => ⟨some ⟨.root, t.span⟩, [], rest⟩
  | .layer => ⟨some ⟨.layer, t.span⟩, [], rest⟩
  | .sibling => sibling t rest
  | .ancestor => ancestor m t rest
  | .unknown => ⟨none, [⟨.invalidCharacter t.text, t.span⟩], []⟩
  | _ => ⟨none, [⟨.unexpected t.text, t.span⟩], []⟩

/-- A step read, and faults found, in one segment. -/
structure Segment where
  fragment? : Option Fragment
  problems : List Problem

/-- A segment is one step and nothing else; what follows a step is reported once. -/
def segment (m : Missing) (t : Token) (rest : List Token) : Segment :=
  let r := fragment m t rest
  match r.result?, r.rest with
  | some f, extra :: _ => ⟨some f, r.problems ++ [⟨.unexpected extra.text, extra.span⟩]⟩
  | some f, [] => ⟨some f, r.problems⟩
  | none, _ => ⟨none, r.problems⟩

/-- The tokens of a path, cut at its slashes: the first segment, then each slash with what follows. -/
def segments : List Token → List Token × List (Token × List Token)
  | [] => ([], [])
  | t :: rest =>
    let s := segments rest
    if t.kind = .slash then ([], (t, s.1) :: s.2) else (t :: s.1, s.2)

/-- What stands behind a segment: the next slash, or what stands behind the path. -/
def separator (m : Missing) : List (Token × List Token) → Missing
  | (slash, _) :: _ => { m with next? := some slash }
  | [] => m

/-- A segment with a slash behind it: empty, it misses its step there. -/
def segmentBefore (m : Missing) (tokens : List Token) (slash : Token) : Segment :=
  match tokens with
  | [] => ⟨none, [⟨.missingSelector, .point slash.span.start⟩]⟩
  | t :: rest => segment m t rest

/-- The segments behind the first one, each with the slash before it. -/
def laterSegments (m : Missing) : List (Token × List Token) → List Segment
  | [] => []
  | (slash, []) :: [] => [⟨none, [⟨.missingSelectorAfterSlash, .point slash.span.stop⟩]⟩]
  | (_, t :: rest) :: [] => [segment m t rest]
  | (_, tokens) :: (next, more) :: later =>
    segmentBefore (separator m ((next, more) :: later)) tokens next ::
      laterSegments m ((next, more) :: later)

/-- All segments of a path that is not empty. -/
def pathSegments (m : Missing) (tokens : List Token) : List Segment :=
  let s := segments tokens
  match s.2 with
  | [] =>
    match s.1 with
    | [] => []
    | t :: rest => [segment m t rest]
  | (slash, more) :: later =>
    segmentBefore (separator m ((slash, more) :: later)) s.1 slash ::
      laterSegments m ((slash, more) :: later)

def path (m : Missing) (tokens : List Token) : Path :=
  let segs := pathSegments m tokens
  let start := (m.span tokens).start
  { fragments := segs.filterMap (·.fragment?)
    span := .cover start ((tokens.getLast?.map (·.span.stop)).getD start)
    problems := segs.flatMap (·.problems) }

/-- Tokens where none should follow are reported as one. -/
def trailing : List Token → List Problem
  | [] => []
  | t :: rest =>
    [⟨.unexpected t.text, ⟨t.span.start, ((t :: rest).getLast?.map (·.span.stop)).getD t.span.stop⟩⟩]

/-- The dot and the property name behind the target of a bind. -/
def property (length : Nat) : List Token → Option Ident × List Problem
  | [] => (none, [⟨.missingProperty, .point length⟩])
  | _ :: rest =>
    match ident? rest with
    | some (name, extra) => (some name, trailing extra)
    | none =>
      (none, ⟨.missingPropertyName, .point ((Missing.mk none length).span rest).start⟩ :: trailing rest)

end Grammar

def Path.ofText (text : List Char) : Path :=
  Grammar.path ⟨none, byteLength text⟩ (Token.tokens text)

/-- Reads a property bind: the target ends at the first dot. -/
def Bind.ofText (text : List Char) : Bind :=
  let length := byteLength text
  let tokens := Token.tokens text
  let before := tokens.takeWhile (·.kind ≠ .dot)
  let after := tokens.dropWhile (·.kind ≠ .dot)
  let target := Grammar.path ⟨after.head?, length⟩ before
  let unnamed : List Problem :=
    if target.isEmpty && target.problems.isEmpty then
      [⟨.missingSelectorBeforeProperty, .point ((Missing.mk none length).span after).start⟩]
    else []
  let property := Grammar.property length after
  let stop := (property.1.map (·.span.stop)).getD target.span.stop
  { target := { target with problems := [] }
    property? := property.1
    span := .cover target.span.start stop
    problems := target.problems ++ unnamed ++ property.2 }

end Selector
end UILayout
