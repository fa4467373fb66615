import UILayout.Markup.StartTag

/-!
# UILayout.Markup.Reader

Reading a document. The text is cut at its markup: tags build the tree, and comments, character
data, declarations and instructions are passed over. Elements that are still open at the end of the
text stay open and reach to the end.

A byte order mark at the start of a text counts for no position: all offsets of such a document are
those of the text without it.
-/

namespace UILayout
namespace Markup

open Text

inductive Piece where
  /-- A start tag, without the slash of an empty element. -/
  | opening (content : List Char) (empty : Bool)
  | closing (content : List Char)
  | passed
  deriving DecidableEq, Repr

namespace Reader

/-- Cuts at the first `>` for which `ends` holds of what stands before it, last character first. -/
def cut (ends : List Char → Bool) (before : List Char) : List Char → Option (List Char × List Char)
  | [] => none
  | c :: cs =>
    if c = '>' ∧ ends before then some (before.reverse, cs) else cut ends (c :: before) cs

/-- Cuts at the first `>` outside quotes. -/
def cutTag (quote? : Option Char) (before : List Char) : List Char → Option (List Char × List Char)
  | [] => none
  | c :: cs =>
    match quote? with
    | some q => cutTag (if c = q then none else quote?) (c :: before) cs
    | none =>
      if c = '>' then some (before.reverse, cs)
      else if c = '"' ∨ c = '\'' then cutTag (some c) (c :: before) cs
      else cutTag none (c :: before) cs

/-- Cuts at the first `>` that closes no `<` before it. -/
def cutBalanced (depth : Nat) (before : List Char) : List Char → Option (List Char × List Char)
  | [] => none
  | c :: cs =>
    if c = '<' then cutBalanced (depth + 1) (c :: before) cs
    else if c = '>' then
      match depth with
      | 0 => some (before.reverse, cs)
      | d + 1 => cutBalanced d (c :: before) cs
    else cutBalanced depth (c :: before) cs

def endsComment (before : List Char) : Bool := 4 < before.length && ['-', '-'].isPrefixOf before

def endsCharacters (before : List Char) : Bool := [']', ']'].isPrefixOf before

def endsInstruction (before : List Char) : Bool := ['?'].isPrefixOf before

/-- Does the text start with these letters, in either case? -/
def startsWith (word cs : List Char) : Bool := word.isPrefixOf (cs.map Char.toUpper)

theorem length_cut_rest {ends : List Char → Bool} {before cs a rest : List Char}
    (h : cut ends before cs = some (a, rest)) : rest.length < cs.length := by
  fun_induction cut ends before cs <;> simp_all
  omega

theorem length_cutTag_rest {quote? : Option Char} {before cs a rest : List Char}
    (h : cutTag quote? before cs = some (a, rest)) : rest.length < cs.length := by
  fun_induction cutTag quote? before cs <;> simp_all <;> omega

theorem length_cutBalanced_rest {depth : Nat} {before cs a rest : List Char}
    (h : cutBalanced depth before cs = some (a, rest)) : rest.length < cs.length := by
  fun_induction cutBalanced depth before cs <;> simp_all <;> omega

/-- The piece behind a `<` that stands at `start`, with the bytes it takes and what follows it. -/
structure Cut where
  piece : Piece
  stop : Nat
  rest : List Char

/-- What is passed over, when the part up to its `>` could be cut off and starts as it must. -/
def passOver (start : Nat) (fault : Fault) (starts : List Char → Bool)
    (found : Option (List Char × List Char)) : Except Failure Cut :=
  match found with
  | some (content, rest) =>
    if starts content then .ok ⟨.passed, start + byteLength content + 2, rest⟩
    else .error ⟨start, fault⟩
  | none => .error ⟨start, fault⟩

/-- A document type, which must have a name. -/
def doctype (start : Nat) (cs : List Char) : Except Failure Cut :=
  match cutBalanced 0 [] cs with
  | some (content, rest) =>
    let stop := start + byteLength content + 2
    if startsWith ['!', 'D', 'O', 'C', 'T', 'Y', 'P', 'E'] content then
      if (content.drop 8).all isTagBlank then .error ⟨stop - 1, .doctypeWithoutName⟩
      else .ok ⟨.passed, stop, rest⟩
    else .error ⟨start, .doctypeNotClosed⟩
  | none => .error ⟨start, .doctypeNotClosed⟩

/-- A tag: the content is cut at the first `>` outside quotes. -/
def tag (start : Nat) (cs : List Char) : Except Failure Cut :=
  match cutTag none [] cs with
  | none => .error ⟨start, .tagNotClosed⟩
  | some (content, rest) =>
    let stop := start + byteLength content + 2
    match content with
    | '/' :: name => .ok ⟨.closing name, stop, rest⟩
    | _ =>
      if content.getLast? = some '/' then .ok ⟨.opening content.dropLast true, stop, rest⟩
      else .ok ⟨.opening content false, stop, rest⟩

/-- The piece behind a `<` at `start`, where `cs` follows. -/
def piece (start : Nat) (cs : List Char) : Except Failure Cut :=
  match cs with
  | [] => .error ⟨start, .tagNotClosed⟩
  | '!' :: kind =>
    match kind with
    | '[' :: _ =>
      passOver start .charactersNotClosed (startsWith ['!', '[', 'C', 'D', 'A', 'T', 'A', '['])
        (cut endsCharacters [] cs)
    | '-' :: _ =>
      passOver start .commentNotClosed (['!', '-', '-'].isPrefixOf ·) (cut endsComment [] cs)
    | 'D' :: _ => doctype start cs
    | 'd' :: _ => doctype start cs
    | _ => .error ⟨start, .unknownMarkup⟩
  | '?' :: _ =>
    passOver start .instructionNotClosed (1 < ·.length) (cut endsInstruction [] cs)
  | _ => tag start cs

theorem length_passOver_rest {start : Nat} {fault : Fault} {starts : List Char → Bool}
    {found : Option (List Char × List Char)} {n : Nat} {c : Cut}
    (hf : ∀ a rest, found = some (a, rest) → rest.length < n)
    (h : passOver start fault starts found = .ok c) : c.rest.length < n := by
  unfold passOver at h
  split at h
  · split at h
    · cases h
      exact hf _ _ rfl
    · cases h
  · cases h

theorem length_doctype_rest {start : Nat} {cs : List Char} {c : Cut}
    (h : doctype start cs = .ok c) : c.rest.length < cs.length := by
  unfold doctype at h
  split at h
  · rename_i content rest hcut
    have := length_cutBalanced_rest hcut
    simp only at h
    split at h
    · split at h
      · cases h
      · cases h
        exact this
    · cases h
  · cases h

theorem length_tag_rest {start : Nat} {cs : List Char} {c : Cut}
    (h : tag start cs = .ok c) : c.rest.length < cs.length := by
  unfold tag at h
  split at h
  · cases h
  · rename_i content rest hcut
    have := length_cutTag_rest hcut
    simp only at h
    split at h
    · cases h
      exact this
    · split at h <;> (cases h; exact this)

theorem length_piece_rest {start : Nat} {cs : List Char} {c : Cut}
    (h : piece start cs = .ok c) : c.rest.length < cs.length := by
  unfold piece at h
  split at h
  · cases h
  · split at h
    · exact length_passOver_rest (fun _ _ => length_cut_rest) h
    · exact length_passOver_rest (fun _ _ => length_cut_rest) h
    · exact length_doctype_rest h
    · exact length_doctype_rest h
    · cases h
  · exact length_passOver_rest (fun _ _ => length_cut_rest) h
  · exact length_tag_rest h

/-- A document that is being read, with its open elements, the innermost first. -/
structure State where
  document : Document
  openElements : List (ElementId × List Char)

/-- The name in an end tag, without the blanks behind it. -/
def endName (content : List Char) : List Char :=
  if content.all isTagBlank then content
  else (content.reverse.dropWhile isTagBlank).reverse

def openElement (text : List Char) (st : State) (content : List Char) (empty : Bool)
    (start stop : Nat) : Except Failure State :=
  match StartTag.element text content start stop with
  | .error fault => .error ⟨start, fault⟩
  | .ok e =>
    let parent? := st.openElements.head?.map (·.1)
    if empty then
      .ok { st with document := (st.document.push parent? { e with stop := stop, closed := true }).1 }
    else
      let pushed := st.document.push parent? e
      .ok ⟨pushed.1, (pushed.2, content.takeWhile fun c => !isTagBlank c) :: st.openElements⟩

/-- Closes the innermost element, whose name must be that of the end tag. -/
def closeElement (st : State) (content : List Char) (start stop : Nat) : Except Failure State :=
  let name := endName content
  match st.openElements with
  | [] => .error ⟨start, .unmatchedEnd (String.ofList name)⟩
  | (id, expected) :: outer =>
    if name = expected then
      .ok ⟨st.document.modify id fun e => { e with stop := stop, closed := true }, outer⟩
    else .error ⟨start, .mismatchedEnd (String.ofList expected) (String.ofList name)⟩

def step (text : List Char) (st : State) (p : Piece) (start stop : Nat) : Except Failure State :=
  match p with
  | .opening content empty => openElement text st content empty start stop
  | .closing content => closeElement st content start stop
  | .passed => .ok st

/-- Reads what is left of `text`, from `position` on. -/
def loop (text : List Char) (st : State) (position : Nat) (cs : List Char) : Except Failure State :=
  match cs with
  | [] => .ok st
  | c :: rest =>
    if c = '<' then
      match _h : piece position rest with
      | .error failure => .error failure
      | .ok found =>
        match step text st found.piece position found.stop with
        | .error failure => .error failure
        | .ok next => loop text next found.stop found.rest
    else loop text st (position + c.utf8Size) rest
  termination_by cs.length
  decreasing_by
    · have := length_piece_rest _h
      simp only [List.length_cons]
      omega
    · simp

def withoutMark : List Char → List Char
  | [] => []
  | c :: cs => if c.toNat = 0xfeff then cs else c :: cs

end Reader

def Document.ofText (id : DocumentId) (path : String) (text : List Char) : Except Failure Document :=
  match Reader.loop text ⟨.empty id path, []⟩ 0 (Reader.withoutMark text) with
  | .error failure => .error failure
  | .ok st =>
    .ok (st.openElements.foldl
      (fun doc element => doc.modify element.1 fun e => { e with stop := byteLength text })
      st.document)

end Markup
end UILayout
