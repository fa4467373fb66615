import UILayout.Context
import UILayout.Text.Case
import UILayout.Text.Search

/-!
# UILayout.Outline.Symbol

Symbols: the things that have names, for an outline of one document and for a search through all.
-/

namespace UILayout
namespace Outline

open Text Schema Markup Namespace

inductive SymbolKind where
  | constant
  | frame
  | animation
  | stateGroup
  | state
  deriving DecidableEq, Repr

namespace SymbolKind

def ofDesc? : DescKind → Option SymbolKind
  | .frame => some .frame
  | .animation => some .animation
  | .stateGroup => some .stateGroup
  | .root | .file => none

def name : SymbolKind → String
  | .constant => "Constant"
  | .frame => "Frame"
  | .animation => "Animation"
  | .stateGroup => "StateGroup"
  | .state => "State"

end SymbolKind

structure Symbol where
  name : String
  /-- The path of the desc; the bare name of a constant. -/
  path : String
  kind : SymbolKind
  document : DocumentId
  span : Span
  /-- The value of its name. -/
  nameSpan : Span
  deriving DecidableEq, Repr

/-- What a path lies in: all before its last slash. -/
def container? (path : String) : Option String :=
  match path.toList.reverse.dropWhile (· ≠ '/') with
  | [] => none
  | _ :: before => some (String.ofList before.reverse)

def Symbol.container? (s : Symbol) : Option String := Outline.container? s.path

/-- The name of an element with its quotes, or the start tag of one without a name. -/
def nameSpan (e : Element) : Span := ((e.attribute? "name").map (·.valueSpan)).getD e.tagSpan

/-! ## One document -/

/-- The kind and the path of the symbol that an element with a name is. -/
def symbolOf? (ctx : Context) (ref : ElementRef) (b : Binding) (name : String) :
    Option (SymbolKind × String) :=
  let pathOf (id : DescId) : Option String := ctx.names.descs[id]?.map (·.path)
  match ctx.schema.slotKind b.slot with
  | .constant => some (.constant, name)
  | .stateGroupState =>
    ((ctx.names.scope? ref).bind pathOf).map fun path => (.state, path ++ "/" ++ name)
  | kind =>
    if kind.declares then
      ((ctx.names.declared? ref).bind (ctx.names.descs[·]?)).bind fun d =>
        (SymbolKind.ofDesc? d.kind).map fun k => (k, d.path)
    else none

def documentSymbols (ctx : Context) (doc : Document) : List Symbol :=
  doc.descendants.filterMap fun id =>
    (doc.element? id).bind fun e =>
      match e.binding?, (e.attribute? "name").filter (!·.value.isEmpty) with
      | some b, some name =>
        (symbolOf? ctx (doc.ref id) b name.value).map fun s =>
          ⟨name.value, s.2, s.1, doc.id, e.span, name.valueSpan⟩
      | _, _ => none

/-! ## All documents -/

/-- The symbol of something that an element stands for. -/
def symbolAt? (ctx : Context) (name path : String) (kind : SymbolKind) (site : ElementRef) :
    Option Symbol :=
  (ctx.element? site).map fun e => ⟨name, path, kind, site.document, e.span, nameSpan e⟩

def descSymbol? (ctx : Context) (d : Desc) : Option Symbol :=
  (SymbolKind.ofDesc? d.kind).bind fun kind =>
    d.sites.head?.bind fun site => symbolAt? ctx d.name d.path kind site.element

def constantSymbol? (ctx : Context) (name : String) (constants : List Constant) : Option Symbol :=
  constants.head?.bind fun c => symbolAt? ctx name name .constant c.site

/-- Does what is looked for, in lower case, stand in a name or in its path? Nothing stands everywhere. -/
def isMatch (query? : Option (List Char)) (name path : String) : Bool :=
  query?.all fun query =>
    isWithin query (lowercase name).toList || isWithin query (lowercase path).toList

/-- All symbols, or those that a query finds, sorted by name; of equal names descs come first, in the
order of their creation. -/
def workspaceSymbols (ctx : Context) (query? : Option String) : List Symbol :=
  let query? := query?.map fun query => (lowercase query).toList
  let descs := (ctx.names.liveDescs.map (·.2)).filter fun d => isMatch query? d.name d.path
  let constants := ctx.names.constants.entries.filter fun c => isMatch query? c.1 c.1
  let found := descs.filterMap (descSymbol? ctx) ++
    constants.filterMap fun c => constantSymbol? ctx c.1 c.2
  found.mergeSort fun a b => a.name ≤ b.name

end Outline
end UILayout
