import UILayout.Selector.Path
import UILayout.Selector.Token

/-!
# UILayout.Selector.Descent

Reading selector expressions by recursive descent. A cursor stands between the tokens of a text that
have been passed and those that have not, and gathers the faults that are found on the way. Each routine
reads what begins at the cursor and leaves the cursor behind it. Where a step is at fault, the cursor goes
on to the next slash, and reading goes on behind that.

A path ends where the tokens end. The target of a bind also ends at a dot, wherever the cursor meets one.

* `length_params_le`, `length_segment_le`: no routine goes back, so the two loops end, each of which
  passes a comma or a slash before it goes on.
-/

namespace UILayout
namespace Selector

open Text

structure Cursor where
  /-- The tokens that have been passed, the last one first. -/
  behind : List Token
  ahead : List Token
  /-- The length of the text. -/
  length : Nat
  problems : List Problem

namespace Cursor

def ofText (text : List Char) : Cursor := ⟨[], Token.tokens text, byteLength text, []⟩

/-! ## Single tokens -/

def isAt (kind : TokenKind) (c : Cursor) : Bool := c.ahead.head?.any (·.kind = kind)

def advance (c : Cursor) : Cursor :=
  match c.ahead with
  | [] => c
  | t :: rest => { c with behind := t :: c.behind, ahead := rest }

/-- Where the next token begins, or the end of the text. -/
def start (c : Cursor) : Nat := (c.ahead.head?.map (·.span.start)).getD c.length

/-- Where the last token that has been passed ends. -/
def lastStop (c : Cursor) : Nat := (c.behind.head?.map (·.span.stop)).getD 0

def report (fault : Fault) (span : Span) (c : Cursor) : Cursor :=
  { c with problems := c.problems ++ [⟨fault, span⟩] }

/-- Does a path end here? -/
def atEnd (inBind : Bool) (c : Cursor) : Bool := c.ahead.isEmpty || (inBind && c.isAt .dot)

theorem length_advance_le (c : Cursor) : c.advance.ahead.length ≤ c.ahead.length := by
  unfold advance
  split
  · exact Nat.le_refl _
  · rename_i h
    simp [h]

theorem length_advance_lt {c : Cursor} (h : c.ahead ≠ []) :
    c.advance.ahead.length < c.ahead.length := by
  unfold advance
  split
  · exact absurd ‹_› h
  · rename_i h
    simp [h]

theorem ahead_ne_nil_of_isAt {kind : TokenKind} {c : Cursor} (h : c.isAt kind) : c.ahead ≠ [] := by
  intro hnil
  rw [isAt, hnil] at h
  cases h

/-- Goes on to the next slash, or to the end of the path. -/
def recover (inBind : Bool) (c : Cursor) : Cursor :=
  if _h : c.atEnd inBind || c.isAt .slash then c else c.advance.recover inBind
  termination_by c.ahead.length
  decreasing_by
    refine length_advance_lt fun hnil => _h ?_
    simp [atEnd, hnil]

/-! ## Parameters -/

/-- The name at the cursor; anything else is reported as `fault`. -/
def ident (fault : Fault) (c : Cursor) : Option Ident × Cursor :=
  match c.ahead with
  | t :: _ => if t.kind = .ident then (some ⟨t.text, t.span⟩, c.advance) else (none, c.report fault t.span)
  | [] => (none, c.report fault (.point c.length))

/-- One `key=value`, with or without an `@` before it. -/
def param (c : Cursor) : Option Param × Cursor :=
  let start := c.start
  let c := if c.isAt .atSign then c.advance else c
  match c.ident .missingParamName with
  | (none, c) => (none, c)
  | (some key, c) =>
    if c.isAt .equals then
      match c.advance.ident .missingParamValue with
      | (none, c) => (none, c)
      | (some value, c) =>
        let p : Param := ⟨key, value, ⟨start, value.span.stop⟩⟩
        (some p, if p.filter?.isNone then c.report (.unknownParam key.text) key.span else c)
    else (none, c.report .missingEquals (.point c.lastStop))

theorem length_ident_le {fault : Fault} {c c' : Cursor} {i? : Option Ident}
    (h : c.ident fault = (i?, c')) : c'.ahead.length ≤ c.ahead.length := by
  unfold ident at h
  split at h
  · split at h
    · cases h
      exact c.length_advance_le
    · cases h
      exact Nat.le_refl _
  · cases h
    exact Nat.le_refl _

theorem length_param_le {c c' : Cursor} {p? : Option Param} (h : c.param = (p?, c')) :
    c'.ahead.length ≤ c.ahead.length := by
  have hsign : (if c.isAt .atSign then c.advance else c).ahead.length ≤ c.ahead.length := by
    split
    · exact c.length_advance_le
    · exact Nat.le_refl _
  unfold param at h
  dsimp only at h
  split at h
  · rename_i hkey
    cases h
    exact Nat.le_trans (length_ident_le hkey) hsign
  · rename_i key afterKey hkey
    have hle := Nat.le_trans (length_ident_le hkey) hsign
    split at h
    · split at h
      · rename_i hvalue
        cases h
        exact Nat.le_trans (length_ident_le hvalue) (Nat.le_trans afterKey.length_advance_le hle)
      · rename_i value afterValue hvalue
        cases h
        have hend := Nat.le_trans (length_ident_le hvalue) (Nat.le_trans afterKey.length_advance_le hle)
        split
        · exact hend
        · exact hend
    · cases h
      exact hle

/-- The parameters behind the bracket that stands at `opening`, up to the closing bracket. -/
def params (opening : Span) (c : Cursor) : Option (List Param) × Cursor :=
  match _h : c.param with
  | (none, c) => (none, c)
  | (some p, next) =>
    if _hcomma : next.isAt .comma then
      let more := next.advance.params opening
      (more.1.map (p :: ·), more.2)
    else if next.isAt .closeBracket then (some [p], next.advance)
    else (none, next.report .unclosedBracket opening)
  termination_by c.ahead.length
  decreasing_by
    exact Nat.lt_of_lt_of_le (length_advance_lt (ahead_ne_nil_of_isAt _hcomma)) (length_param_le _h)

theorem length_params_le (opening : Span) (c : Cursor) :
    (c.params opening).2.ahead.length ≤ c.ahead.length := by
  fun_induction params opening c with
  | case1 c c' h => exact length_param_le h
  | case2 c p next h hcomma more ih =>
    exact Nat.le_trans ih (Nat.le_trans next.length_advance_le (length_param_le h))
  | case3 c p next h _ _ => exact Nat.le_trans next.length_advance_le (length_param_le h)
  | case4 c p next h _ _ =>
    have hle : next.ahead.length ≤ c.ahead.length := length_param_le h
    exact hle

/-! ## Fragments -/

/-- The dash and the name behind `$sibling`. -/
def sibling (keyword : Span) (c : Cursor) : Option Fragment × Cursor :=
  if c.isAt .minus then
    let c := c.advance
    match c.ahead with
    | t :: _ =>
      if t.kind = .ident then
        (some ⟨.sibling ⟨t.text, t.span⟩, ⟨keyword.start, t.span.stop⟩⟩, c.advance)
      else (none, c.report .missingSiblingName (.point c.lastStop))
    | [] => (none, c.report .missingSiblingName (.point c.lastStop))
  else (none, c.report .missingSiblingDash keyword)

/-- The parameter list behind `$ancestor`, if there is one. -/
def ancestor (keyword : Span) (c : Cursor) : Option Fragment × Cursor :=
  match c.ahead with
  | t :: _ =>
    if t.kind = .openBracket then
      let ps := c.advance.params t.span
      (ps.1.map fun list => ⟨.ancestor list, ⟨keyword.start, ps.2.lastStop⟩⟩, ps.2)
    else (some ⟨.ancestor [], ⟨keyword.start, c.lastStop⟩⟩, c)
  | [] => (some ⟨.ancestor [], ⟨keyword.start, c.lastStop⟩⟩, c)

/-- The step that begins at the cursor. -/
def fragment (c : Cursor) : Option Fragment × Cursor :=
  match c.ahead with
  | [] => (none, c)
  | t :: _ =>
    match t.kind with
    | .ident => (some ⟨.child ⟨t.text, t.span⟩, t.span⟩, c.advance)
    | .handle =>
      (some ⟨.handle ⟨String.ofList (t.text.toList.drop 1), ⟨t.span.start + 1, t.span.stop⟩⟩, t.span⟩,
        c.advance)
    | .this => (some ⟨.this, t.span⟩, c.advance)
    | .parent => (some ⟨.parent, t.span⟩, c.advance)
    | .root => (some ⟨.root, t.span⟩, c.advance)
    | .layer => (some ⟨.layer, t.span⟩, c.advance)
    | .sibling => c.advance.sibling t.span
    | .ancestor => c.advance.ancestor t.span
    | .slash => (none, c.report .missingSelector (.point t.span.start))
    | .unknown => (none, c.report (.invalidCharacter t.text) t.span)
    | _ => (none, c.report (.unexpected t.text) t.span)

/-- One step, and then on to the next slash or to the end of the path. What stands between them is
reported once. -/
def segment (inBind : Bool) (c : Cursor) : Option Fragment × Cursor :=
  match c.fragment with
  | (none, c) => (none, c.recover inBind)
  | (some f, c) =>
    match c.ahead with
    | [] => (some f, c)
    | extra :: _ =>
      if c.atEnd inBind || c.isAt .slash then (some f, c)
      else (some f, (c.report (.unexpected extra.text) extra.span).recover inBind)

theorem length_recover_le (inBind : Bool) (c : Cursor) :
    (c.recover inBind).ahead.length ≤ c.ahead.length := by
  fun_induction recover inBind c with
  | case1 c => exact Nat.le_refl _
  | case2 c _ ih => exact Nat.le_trans ih c.length_advance_le

theorem length_sibling_le (keyword : Span) (c : Cursor) :
    (c.sibling keyword).2.ahead.length ≤ c.ahead.length := by
  unfold sibling
  split
  · dsimp only
    split
    · split
      · exact Nat.le_trans c.advance.length_advance_le c.length_advance_le
      · exact c.length_advance_le
    · exact c.length_advance_le
  · exact Nat.le_refl _

theorem length_ancestor_le (keyword : Span) (c : Cursor) :
    (c.ancestor keyword).2.ahead.length ≤ c.ahead.length := by
  unfold ancestor
  split
  · split
    · exact Nat.le_trans (length_params_le _ _) c.length_advance_le
    · exact Nat.le_refl _
  · exact Nat.le_refl _

theorem length_fragment_le (c : Cursor) : c.fragment.2.ahead.length ≤ c.ahead.length := by
  unfold fragment
  split
  · exact Nat.le_refl _
  · split
    case h_7 => exact Nat.le_trans (length_sibling_le _ _) c.length_advance_le
    case h_8 => exact Nat.le_trans (length_ancestor_le _ _) c.length_advance_le
    case h_9 | h_10 | h_11 => exact Nat.le_refl _
    all_goals exact c.length_advance_le

theorem length_segment_le (inBind : Bool) (c : Cursor) :
    (c.segment inBind).2.ahead.length ≤ c.ahead.length := by
  have hfragment := c.length_fragment_le
  unfold segment
  split
  · rename_i c' h
    rw [h] at hfragment
    exact Nat.le_trans (length_recover_le inBind c') hfragment
  · rename_i f c' h
    rw [h] at hfragment
    split
    · exact hfragment
    · split
      · exact hfragment
      · exact Nat.le_trans (length_recover_le inBind _) hfragment

/-! ## Paths -/

/-- The steps of a path that does not end at the cursor. -/
def fragments (inBind : Bool) (c : Cursor) : List Fragment × Cursor :=
  let s := c.segment inBind
  match _h : s.2.ahead with
  | [] => (s.1.toList, s.2)
  | slash :: _ =>
    if slash.kind = .slash then
      let next := s.2.advance
      if next.atEnd inBind then
        (s.1.toList, next.report .missingSelectorAfterSlash (.point slash.span.stop))
      else
        let more := next.fragments inBind
        (s.1.toList ++ more.1, more.2)
    else (s.1.toList, s.2)
  termination_by c.ahead.length
  decreasing_by
    refine Nat.lt_of_lt_of_le (length_advance_lt ?_) (c.length_segment_le inBind)
    rw [_h]
    exact List.cons_ne_nil _ _

/-- A path, whose faults stay with the cursor. -/
def path (inBind : Bool) (c : Cursor) : Path × Cursor :=
  if c.atEnd inBind then (⟨[], .point c.start, []⟩, c)
  else
    let fs := c.fragments inBind
    (⟨fs.1, ⟨c.start, max fs.2.lastStop c.start⟩, []⟩, fs.2)

/-- Tokens where none should follow are reported as one. -/
def trailing (c : Cursor) : Cursor :=
  match c.ahead with
  | [] => c
  | t :: _ =>
    let stop := (c.ahead.getLast?.map (·.span.stop)).getD c.length
    { c.report (.unexpected t.text) ⟨t.span.start, stop⟩ with
      behind := c.ahead.reverse ++ c.behind, ahead := [] }

/-- The dot and the property name behind the target of a bind. -/
def property (c : Cursor) : Option Ident × Cursor :=
  if c.isAt .dot then
    let c := c.advance
    match c.ahead with
    | t :: _ =>
      if t.kind = .ident then (some ⟨t.text, t.span⟩, c.advance)
      else (none, c.report .missingPropertyName (.point c.start))
    | [] => (none, c.report .missingPropertyName (.point c.start))
  else (none, c.report .missingProperty (.point c.start))

end Cursor

def Path.byDescent (text : List Char) : Path :=
  let p := (Cursor.ofText text).path false
  { p.1 with problems := p.2.trailing.problems }

def Bind.byDescent (text : List Char) : Bind :=
  let target := (Cursor.ofText text).path true
  let c :=
    if target.1.isEmpty && target.2.problems.isEmpty then
      target.2.report .missingSelectorBeforeProperty (.point target.2.start)
    else target.2
  let name := c.property
  let stop := (name.1.map (·.span.stop)).getD target.1.span.stop
  { target := target.1
    property? := name.1
    span := ⟨target.1.span.start, max stop target.1.span.start⟩
    problems := name.2.trailing.problems }

end Selector
end UILayout
