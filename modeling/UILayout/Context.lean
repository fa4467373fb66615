import UILayout.Namespace.Lookup

/-!
# UILayout.Context

What questions about layouts are answered from: the schema, the namespace and the documents.
-/

namespace UILayout

open Schema Markup

structure Context where
  schema : Schema
  names : Namespace
  documents : OrderedMap DocumentId Document

namespace Context

def document? (ctx : Context) (id : DocumentId) : Option Document := ctx.documents.get? id

def element? (ctx : Context) (r : ElementRef) : Option Element :=
  (ctx.document? r.document).bind (·.element? r.element)

/-- The frame type that a desc of the tree is declared with. -/
def frameTypeOf? (ctx : Context) (id : DescId) : Option FrameType :=
  (((ctx.names.live? id).bind (·.type?)).bind ctx.schema.frameTypeOf?).bind
    (ctx.schema.frameTypes[·]?)

/-- The innermost desc around an element, or the root of the namespace. -/
def scopeOf (ctx : Context) (r : ElementRef) : DescId :=
  (ctx.names.scope? r).getD Namespace.root

end Context

end UILayout
