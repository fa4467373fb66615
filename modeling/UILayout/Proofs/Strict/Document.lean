import UILayout.Proofs.Check.Spans
import UILayout.Proofs.Hierarchy.Questions
import UILayout.Proofs.Strict.Walk

/-!
# UILayout.Proofs.Strict.Document

The strict form of checking a document, which is `none` where anything is missing, a text cannot be cut
or a span is inverted.

* `typings_fit`: the types of attributes are there.
* `checkReference_eq`, `checkElement_eq`: the checks one by one.
* `document_eq`: checking a document.
-/

namespace UILayout
namespace Strict

open Text Schema Markup Selector Namespace Hierarchy Check

/-! ## Values -/

def selectorReports (a : Attribute) (problems : List Problem) : Option (List Report) :=
  problems.mapM fun p => (sourceSpan a p.span).map (.plain (.selector p.fault))

def readPath (a : Attribute) : Option (Except (List Report) Path) := do
  let p ← path a.value.toList
  if p.hasProblems then return .error (← selectorReports a p.problems)
  if p.isEmpty then return .error [.plain .emptyPath a.valueSpan]
  return .ok p

def checkTemplate (ctx : Context) (a : Attribute) : Option (List Report) := do
  match ← readPath a with
  | .error reports => return reports
  | .ok p =>
    let names ← fragmentTexts p a.value.toList
    match ctx.names.follow? Namespace.root names with
    | none => return [.plain (.templateNotFound a.value) a.valueSpan]
    | some id =>
      let kind ← ctx.names.kind? id
      return if kind = .file then [.plain .templateIsFile a.valueSpan] else []

def typeName (ctx : Context) (id : DescId) : Option String := do
  let d ← ctx.names.descs[id]?
  let t? ← entry ctx.schema.complexTypes d.type?
  return (t?.map (·.name)).getD d.kind.name

def checkClass (ctx : Context) (a : Attribute) (target : DescId) (frameClass : String) :
    Option (List Report) := do
  match ← frameTypeOf ctx target with
  | some f =>
    let passed ← hasClass ctx.schema f frameClass
    return if passed then [] else [.plain (.wrongClass f.name frameClass) a.valueSpan]
  | none =>
    let name ← typeName ctx target
    return [.plain (.wrongClass name frameClass) a.valueSpan]

def checkReference (ctx : Context) (h : Hierarchy) (a : Attribute) (t : SimpleType)
    (scope : DescId) : Option Reports := do
  match ← readPath a with
  | .error reports => return (reports, h)
  | .ok p =>
    let found ← resolve ctx h scope p
    match found.1.target? with
    | none =>
      if found.1.isComplete then return ([], found.2)
      let f ← p.fragments[found.1.items.length]?
      let s ← sourceSpan a f.span
      return ([.plain (.unresolvedPath a.value) s], found.2)
    | some target =>
      match t.internal? with
      | none => return ([], found.2)
      | some frameClass =>
        let reports ← checkClass ctx a target frameClass
        return (reports, found.2)

def checkPlain (ctx : Context) (scope : DescId) (h : Hierarchy) (a : Attribute)
    (type : SimpleTypeId) : Option Reports := do
  match ← checkSimple ctx.schema a.value type with
  | .error fault => return ([.plain (.invalidValue a.name fault) a.valueSpan], h)
  | .ok () =>
    let t ← ctx.schema.simpleTypes[type]?
    match t.builtin with
    | .descTemplateName => (checkTemplate ctx a).map (·, h)
    | .descInternal => checkReference ctx h a t scope
    | _ => return ([], h)

def checkBind (ctx : Context) (a : Attribute) : Option (List Report) := do
  let b ← bind a.value.toList
  if b.hasProblems then selectorReports a b.problems
  else return Check.checkBind ctx a

def takesPath (s : Schema) (type : SimpleTypeId) : Option Bool :=
  s.simpleTypes[type]?.map (·.builtin.isSelector)

def checkConstant (ctx : Context) (scope : DescId) (h : Hierarchy) (a : Attribute)
    (type : SimpleTypeId) (r : Reference) : Option Reports := do
  let undeclared : List Report := [.plain (.undeclaredConstant a.value) a.valueSpan]
  match ctx.names.resolve? r with
  | some _ => return ([], h)
  | none =>
    match r with
    | .racial _ => return (undeclared, h)
    | .exact name =>
      let takes ← takesPath ctx.schema type
      let handle? ← handle ctx.names name
      if takes && handle?.isSome then checkPlain ctx scope h a type else return (undeclared, h)

def checkValue (ctx : Context) (scope : DescId) (h : Hierarchy) (a : Attribute)
    (type : SimpleTypeId) : Option Reports := do
  match ← reference a.value with
  | some r => checkConstant ctx scope h a type r
  | none =>
    match ValueForm.ofText a.value.toList with
    | .bind => (checkBind ctx a).map (·, h)
    | _ => checkPlain ctx scope h a type

/-! ## Elements -/

def wildcardName (s : Schema) (a : Attribute) (key : SimpleTypeId) : Option (List Report) := do
  let t ← s.simpleTypes[key]?
  if t.builtin = .propertyName then return Check.wildcardName s a key
  match ← checkSimple s a.name key with
  | .ok () => return []
  | .error fault => return [.plain (.invalidAttributeName a.name fault) a.nameSpan]

def checkAttribute (ctx : Context) (allowExtra : Bool) (scope : DescId) (h : Hierarchy)
    (typed : Attribute × Typing) : Option Reports :=
  match typed.2 with
  | .declared type => checkValue ctx scope h typed.1 type
  | .wildcard rule => do
    let name ← wildcardName ctx.schema typed.1 rule.key
    let value ← checkValue ctx scope h typed.1 rule.value
    return (name ++ value.1, value.2)
  | .unknown => some (Check.checkAttribute ctx allowExtra scope h typed)

def unusedWildcards (s : Schema) (e : Element) (unused : List Wildcard) : Option (List Report) :=
  unused.mapM fun rule => s.simpleTypes[rule.key]?.map fun t => .plain (.unusedWildcard t.name) e.tagSpan

def inTurn {α : Type} (check : Hierarchy → α → Option Reports) (h : Hierarchy) :
    List α → Option Reports
  | [] => some ([], h)
  | a :: rest => do
    let first ← check h a
    let more ← inTurn check first.2 rest
    return (first.1 ++ more.1, more.2)

def checkAttributes (ctx : Context) (scope : DescId) (h : Hierarchy) (e : Element)
    (t : ComplexType) : Option Reports := do
  let typed := typeAttributes t t.wildcards e.attributes
  let checked ← inTurn (checkAttribute ctx t.flags.allowExtra scope) h typed.1
  let unused ← unusedWildcards ctx.schema e typed.2
  return (checked.1 ++ unused, checked.2)

def checkFile (ctx : Context) (h : Hierarchy) (e : Element) (id : DescId) (name : String)
    (file : Attribute) : Option Reports :=
  if (ctx.names.child? Namespace.root file.value).isNone then
    some ([.plain (.fileNotFound file.value) file.valueSpan], h)
  else do
    let found ← ofDesc ctx h id
    match found.1 with
    | some _ => return ([], found.2)
    | none =>
      let span := ((e.attribute? "name").map (·.valueSpan)).getD e.tagSpan
      return ([.plain (.notInFile name file.value) span], found.2)

def checkDeclaration (ctx : Context) (doc : Document) (h : Hierarchy) (ref : ElementRef)
    (e : Element) (id : DescId) : Option Reports := do
  let d ← ctx.names.descs[id]?
  match e.attribute? "file" with
  | some file => checkFile ctx h e id d.name file
  | none => return (checkRedeclared doc ref e d, h)

def checkElement (ctx : Context) (doc : Document) (h : Hierarchy)
    (bound : ElementId × Element × Binding) : Option Reports := do
  let ref := doc.ref bound.1
  let kind ← slotKind ctx.schema bound.2.2.slot
  let declaration ←
    match if kind.declares then ctx.names.declared? ref else none with
    | some id => checkDeclaration ctx doc h ref bound.2.1 id
    | none => some ([], h)
  let t ← ctx.schema.complexTypes[bound.2.2.type]?
  let attributes ← checkAttributes ctx (ctx.scopeOf ref) declaration.2 bound.2.1 t
  return (declaration.1 ++ attributes.1, attributes.2)

/-! ## Documents -/

def unknownElements (doc : Document) (id : ElementId) : Option (List Report) := do
  let e ← doc.element? id
  let children ← elements doc e.children
  return children.filterMap fun x =>
    if x.2.binding?.isNone then some (.plain (.unknownElement x.2.tag) (tagNameSpan x.2)) else none

def structureOf (s : Schema) (doc : Document) (id : ElementId) (e : Element) (b : Binding) :
    Option (List Report) := do
  let t ← s.complexTypes[b.type]?
  let unknown ← unknownElements doc id
  return missingAttributes t e ++ unknown

def structureReports (s : Schema) (doc : Document) : Option (List Report) := do
  let bound ← boundElements doc
  let reports ← bound.mapM fun e => structureOf s doc e.1 e.2.1 e.2.2
  return reports.flatten

def document (ctx : Context) (h : Hierarchy) (doc : Document) : Option Reports := do
  let bound ← boundElements doc
  let names ← inTurn (checkElement ctx doc) h bound
  let reports ← structureReports ctx.schema doc
  return (reports ++ names.1, names.2)

/-! ## Nothing is missing -/

section

variable {ctx : Context} {h : Hierarchy} {a : Attribute} {scope : DescId}

theorem selectorReports_eq (ha : a.Ordered) {problems : List Problem}
    (hspans : ∀ p ∈ problems, p.span.start ≤ p.span.stop) :
    selectorReports a problems = some (Check.selectorReports a problems) := by
  refine mapM_eq_some fun p hp => ?_
  rw [sourceSpan_eq ha (hspans p hp)]
  rfl

theorem readPath_eq (ha : a.Ordered) : readPath a = some (Check.readPath a) := by
  have hinside := Path.inside_ofText a.value.toList
  unfold readPath Check.readPath
  rw [path_eq, Option.bind_eq_bind, Option.bind_some,
    selectorReports_eq ha fun p hp => (hinside.problems p hp).ordered]
  dsimp only
  split
  · rfl
  · split <;> rfl

/-- The simple types that a typing asks for are there. -/
def TypingFits (s : Schema) : Typing → Prop
  | .declared type => type < s.simpleTypes.size
  | .wildcard rule => rule.key < s.simpleTypes.size ∧ rule.value < s.simpleTypes.size
  | .unknown => True

theorem typings_fit {s : Schema} {t : ComplexType}
    (hattributes : ∀ d ∈ t.attributes.values, d.type < s.simpleTypes.size) {unused : List Wildcard}
    (hunused : ∀ rule ∈ unused, rule.key < s.simpleTypes.size ∧ rule.value < s.simpleTypes.size)
    (as : List Attribute) :
    (∀ typed ∈ (typeAttributes t unused as).1, typed.1 ∈ as ∧ TypingFits s typed.2) ∧
      ∀ rule ∈ (typeAttributes t unused as).2,
        rule.key < s.simpleTypes.size ∧ rule.value < s.simpleTypes.size := by
  induction as generalizing unused with
  | nil => exact ⟨nofun, hunused⟩
  | cons a rest ih =>
    -- whatever the typing of the first attribute is, the others are typed after it
    have behind : ∀ {typing : Typing} {left : List Wildcard}, TypingFits s typing →
        (∀ rule ∈ left, rule.key < s.simpleTypes.size ∧ rule.value < s.simpleTypes.size) →
        (∀ typed ∈ (a, typing) :: (typeAttributes t left rest).1,
          typed.1 ∈ a :: rest ∧ TypingFits s typed.2) ∧
          ∀ rule ∈ (typeAttributes t left rest).2,
            rule.key < s.simpleTypes.size ∧ rule.value < s.simpleTypes.size := by
      intro typing left htyping hleft
      obtain ⟨htyped, hrules⟩ := ih hleft
      refine ⟨fun typed hmem => ?_, hrules⟩
      rcases List.mem_cons.1 hmem with rfl | hmem
      · exact ⟨List.mem_cons_self, htyping⟩
      · exact ⟨List.mem_cons_of_mem a (htyped typed hmem).1, (htyped typed hmem).2⟩
    unfold typeAttributes
    cases hget : t.attributes.get? a.name with
    | some defined => exact behind (hattributes defined (OrderedMap.mem_values_of_get? hget)) hunused
    | none =>
      cases unused with
      | nil => exact behind trivial hunused
      | cons rule left =>
        exact behind (hunused rule List.mem_cons_self)
          fun other hother => hunused other (List.mem_cons_of_mem rule hother)

variable (hctx : Whole ctx)

include hctx

theorem checkTemplate_eq (ha : a.Ordered) : checkTemplate ctx a = some (Check.checkTemplate ctx a) := by
  obtain ⟨r, hr, -⟩ := hctx.names.tree.live_root
  unfold checkTemplate Check.checkTemplate
  rw [readPath_eq ha]
  simp only [Option.bind_eq_bind, Option.bind_some]
  cases hread : Check.readPath a with
  | error reports => rfl
  | ok p =>
    obtain ⟨rfl, -⟩ := readPath_ok hread
    dsimp only
    rw [fragmentTexts_eq, Option.bind_some]
    cases hfollow : ctx.names.follow? Namespace.root _ with
    | none => rfl
    | some id =>
      obtain ⟨d, hd⟩ := live_of_follow? hctx.names.tree ⟨r, hr⟩ hfollow
      dsimp only
      rw [kind?_of_live hd]
      simp only [Option.bind_some, Option.some.injEq]
      rfl

theorem typeName_eq {id : DescId} {d : Desc} (hd : ctx.names.live? id = some d) :
    typeName ctx id = some (Check.typeName ctx id) := by
  have htype : ∀ type, d.type? = some type → type < ctx.schema.complexTypes.size := by
    intro type htype
    obtain ⟨site, hsite, hsome⟩ := List.exists_of_findSome?_eq_some htype
    exact hctx.sites hd site hsite type hsome
  unfold typeName Check.typeName
  rw [(live?_eq_some_iff.1 hd).1]
  simp only [Option.bind_eq_bind, Option.bind_some, entry_eq htype]
  rfl

theorem checkClass_eq {target : DescId} {d : Desc} (hd : ctx.names.live? target = some d)
    (frameClass : String) :
    checkClass ctx a target frameClass = some (Check.checkClass ctx a target frameClass) := by
  unfold checkClass Check.checkClass
  rw [frameTypeOf_eq]
  simp only [Option.bind_eq_bind, Option.bind_some]
  cases hf : ctx.frameTypeOf? target with
  | none =>
    dsimp only
    rw [typeName_eq hctx hd]
    rfl
  | some f =>
    obtain ⟨frame, -, hframe⟩ := Option.bind_eq_some_iff.1 hf
    have hclasses := (hctx.schema.frameTypes f (Array.mem_of_getElem? hframe)).2
    dsimp only
    rw [hasClass_eq hclasses]
    rfl

theorem checkReference_eq (hc : Coherent ctx h) (ha : a.Ordered) {d : Desc}
    (hscope : ctx.names.live? scope = some d) (t : SimpleType) :
    checkReference ctx h a t scope = some (Check.checkReference ctx h a t scope) := by
  unfold checkReference
  rw [readPath_eq ha]
  simp only [Option.bind_eq_bind, Option.bind_some]
  cases hread : Check.readPath a with
  | error reports =>
    unfold Check.checkReference
    rw [hread]
    rfl
  | ok p =>
    obtain ⟨hp, hempty⟩ := readPath_ok hread
    unfold Check.checkReference
    rw [hread]
    dsimp only
    rw [resolve_eq hctx hc hscope, Option.bind_some]
    cases htarget : (h.resolve ctx scope p).1.target? with
    | some target =>
      obtain ⟨td, htd⟩ := live_target hctx.names.tree hc htarget
      dsimp only
      cases t.internal? with
      | none => rfl
      | some frameClass =>
        dsimp only
        rw [checkClass_eq hctx htd]
        rfl
    | none =>
      dsimp only
      by_cases hcomplete : (h.resolve ctx scope p).1.isComplete = true
      · rw [if_pos hcomplete, if_pos hcomplete]
        rfl
      · obtain ⟨f, hf, hget⟩ := exists_fragment hempty (Bool.eq_false_iff.2 hcomplete)
        subst hp
        have hspan := ((Path.inside_ofText a.value.toList).fragments f hf).span.ordered
        rw [if_neg hcomplete, if_neg hcomplete, hget]
        simp only [Option.bind_some, sourceSpan_eq ha hspan]
        rfl

/-! ### Attributes -/

variable {type : SimpleTypeId}

theorem checkPlain_eq (hc : Coherent ctx h) (ha : a.Ordered) {d : Desc}
    (hscope : ctx.names.live? scope = some d) (htype : type < ctx.schema.simpleTypes.size) :
    checkPlain ctx scope h a type = some (Check.checkPlain ctx scope h a type) := by
  unfold checkPlain Check.checkPlain
  rw [checkSimple_eq hctx.schema a.value htype]
  simp only [Option.bind_eq_bind, Option.bind_some]
  cases ctx.schema.checkValue a.value type with
  | error fault => rfl
  | ok _ =>
    dsimp only
    rw [Array.getElem?_eq_getElem htype, Option.bind_some]
    dsimp only
    cases ctx.schema.simpleTypes[type].builtin with
    | descTemplateName =>
      dsimp only
      rw [checkTemplate_eq hctx ha]
      rfl
    | descInternal => exact checkReference_eq hctx hc ha hscope _
    | _ => rfl

omit hctx in
theorem checkBind_eq (ctx : Context) (ha : a.Ordered) :
    checkBind ctx a = some (Check.checkBind ctx a) := by
  have hinside := Bind.inside_ofText a.value.toList
  unfold checkBind
  rw [bind_eq, Option.bind_eq_bind, Option.bind_some]
  split
  · rename_i hproblems
    rw [selectorReports_eq ha fun p hp => (hinside p.span (Bind.span_mem_spans hp)).ordered]
    unfold Check.checkBind
    rw [if_pos hproblems]
  · rfl

theorem checkConstant_eq (hc : Coherent ctx h) (ha : a.Ordered) {d : Desc}
    (hscope : ctx.names.live? scope = some d) (htype : type < ctx.schema.simpleTypes.size)
    (r : Reference) :
    checkConstant ctx scope h a type r = some (Check.checkConstant ctx scope h a type r) := by
  unfold checkConstant Check.checkConstant
  dsimp only
  cases ctx.names.resolve? r with
  | some c => rfl
  | none =>
    cases r with
    | racial name => rfl
    | exact name =>
      have htakes : takesPath ctx.schema type = some (Check.takesPath ctx.schema type) := by
        rw [takesPath, Check.takesPath, Array.getElem?_eq_getElem htype]
        rfl
      simp only [Option.bind_eq_bind, htakes, handle_eq hctx, Option.bind_some]
      split
      · exact checkPlain_eq hctx hc ha hscope htype
      · rfl

theorem checkValue_eq (hc : Coherent ctx h) (ha : a.Ordered) {d : Desc}
    (hscope : ctx.names.live? scope = some d) (htype : type < ctx.schema.simpleTypes.size) :
    checkValue ctx scope h a type = some (Check.checkValue ctx scope h a type) := by
  unfold checkValue Check.checkValue
  rw [reference_eq, Option.bind_eq_bind, Option.bind_some]
  cases Reference.ofValue? a.value with
  | some r => exact checkConstant_eq hctx hc ha hscope htype r
  | none =>
    dsimp only
    cases ValueForm.ofText a.value.toList with
    | bind =>
      dsimp only
      rw [checkBind_eq ctx ha]
      rfl
    | _ => exact checkPlain_eq hctx hc ha hscope htype

theorem wildcardName_eq {key : SimpleTypeId} (hkey : key < ctx.schema.simpleTypes.size) :
    wildcardName ctx.schema a key = some (Check.wildcardName ctx.schema a key) := by
  unfold wildcardName
  rw [Array.getElem?_eq_getElem hkey, Option.bind_eq_bind, Option.bind_some]
  split
  · rfl
  · rename_i hproperty
    rw [checkSimple_eq hctx.schema a.name hkey, Option.bind_eq_bind, Option.bind_some]
    unfold Check.wildcardName
    rw [Array.getElem?_eq_getElem hkey, Option.any_some, if_neg (by simpa using hproperty)]
    cases ctx.schema.checkValue a.name key <;> rfl

theorem checkAttribute_eq (hc : Coherent ctx h) {d : Desc} (hscope : ctx.names.live? scope = some d)
    (allowExtra : Bool) {typed : Attribute × Typing} (ha : typed.1.Ordered)
    (htyped : TypingFits ctx.schema typed.2) :
    checkAttribute ctx allowExtra scope h typed =
      some (Check.checkAttribute ctx allowExtra scope h typed) := by
  obtain ⟨a, typing⟩ := typed
  unfold checkAttribute
  cases typing with
  | declared type => exact checkValue_eq hctx hc ha hscope htyped
  | wildcard rule =>
    dsimp only
    rw [wildcardName_eq hctx htyped.1, checkValue_eq hctx hc ha hscope htyped.2]
    rfl
  | unknown => rfl

omit hctx in
theorem inTurn_eq {α : Type} {check : Hierarchy → α → Option Reports}
    {total : Hierarchy → α → Reports} {items : List α} (hsteady : ∀ a, Steady ctx fun h => total h a)
    (hcheck : ∀ a ∈ items, ∀ {h : Hierarchy}, Coherent ctx h → check h a = some (total h a))
    (hc : Coherent ctx h) : inTurn check h items = some (Check.inTurn total h items) := by
  induction items generalizing h with
  | nil => rfl
  | cons a rest ih =>
    have hrest := ih (fun b hb => hcheck b (List.mem_cons_of_mem a hb)) ((hsteady a).coherent hc)
    rw [inTurn, hcheck a List.mem_cons_self hc]
    simp only [Option.bind_eq_bind, Option.bind_some, hrest]
    rfl

theorem checkAttributes_eq (hc : Coherent ctx h) {d : Desc} (hscope : ctx.names.live? scope = some d)
    {e : Element} (hordered : ∀ a ∈ e.attributes, a.Ordered) {t : ComplexType}
    (ht : t ∈ ctx.schema.complexTypes) :
    checkAttributes ctx scope h e t = some (Check.checkAttributes ctx scope h e t) := by
  obtain ⟨htyped, hunused⟩ := typings_fit (hctx.schema.attributes t ht)
    (hctx.schema.wildcards t ht) e.attributes
  have hreports : unusedWildcards ctx.schema e (typeAttributes t t.wildcards e.attributes).2 =
      some (Check.unusedWildcards ctx.schema e (typeAttributes t t.wildcards e.attributes).2) := by
    refine mapM_eq_some fun rule hrule => ?_
    rw [Array.getElem?_eq_getElem (hunused rule hrule).1]
    rfl
  have hchecked := inTurn_eq (h := h)
    (steady_checkAttribute ctx t.flags.allowExtra scope)
    (fun typed hmem h hc => checkAttribute_eq hctx hc hscope t.flags.allowExtra
      (hordered typed.1 (htyped typed hmem).1) (htyped typed hmem).2) hc
  unfold checkAttributes
  simp only [Option.bind_eq_bind, hchecked, hreports, Option.bind_some]
  rfl

/-! ### Elements -/

theorem checkFile_eq (hc : Coherent ctx h) {id : DescId} {d : Desc}
    (hd : ctx.names.live? id = some d) (e : Element) (name : String) (file : Attribute) :
    checkFile ctx h e id name file = some (Check.checkFile ctx h e id name file) := by
  unfold checkFile Check.checkFile
  split
  · rfl
  · rw [ofDesc_eq hctx hc hd]
    generalize h.ofDesc ctx id = found
    obtain ⟨node?, h₁⟩ := found
    cases node? <;> rfl

theorem checkDeclaration_eq (hc : Coherent ctx h) {id : DescId} {d : Desc}
    (hd : ctx.names.live? id = some d) (doc : Document) (ref : ElementRef) (e : Element) :
    checkDeclaration ctx doc h ref e id = some (Check.checkDeclaration ctx doc h ref e id) := by
  unfold checkDeclaration Check.checkDeclaration
  rw [(live?_eq_some_iff.1 hd).1, Option.bind_eq_bind, Option.bind_some]
  cases e.attribute? "file" with
  | none => rfl
  | some file => exact checkFile_eq hctx hc hd e d.name file

theorem exists_scopeOf (ref : ElementRef) : ∃ d, ctx.names.live? (ctx.scopeOf ref) = some d := by
  unfold Context.scopeOf
  cases hscope : ctx.names.scope? ref with
  | none =>
    obtain ⟨r, hr, -⟩ := hctx.names.tree.live_root
    exact ⟨r, hr⟩
  | some scope => exact hctx.names.live_scope? hscope

theorem checkElement_eq (hc : Coherent ctx h) (doc : Document)
    {bound : ElementId × Element × Binding} (hfits : bound.2.2.Fits ctx.schema)
    (hordered : ∀ a ∈ bound.2.1.attributes, a.Ordered) :
    checkElement ctx doc h bound = some (Check.checkElement ctx doc h bound) := by
  obtain ⟨d, hscope⟩ := exists_scopeOf hctx (doc.ref bound.1)
  have hdeclared : ∀ id, (if (ctx.schema.slotKind bound.2.2.slot).declares then
      ctx.names.declared? (doc.ref bound.1) else none) = some id →
        ∃ d, ctx.names.live? id = some d := by
    intro id hid
    split at hid
    · exact hctx.names.live_declared? hid
    · cases hid
  unfold checkElement Check.checkElement
  simp only [slotKind_eq hfits.slot, Option.bind_eq_bind, Option.bind_some,
    Array.getElem?_eq_getElem hfits.type]
  generalize (if (ctx.schema.slotKind bound.2.2.slot).declares then
      ctx.names.declared? (doc.ref bound.1) else none) = declared? at hdeclared
  have hmem := Array.getElem_mem hfits.type
  cases declared? with
  | none =>
    simp only [Option.bind_some, checkAttributes_eq hctx hc hscope hordered hmem]
    rfl
  | some id =>
    obtain ⟨x, hx⟩ := hdeclared id rfl
    have hc₁ := (steady_checkDeclaration ctx doc (doc.ref bound.1) bound.2.1 id).coherent hc
    simp only [checkDeclaration_eq hctx hc hx, Option.bind_some,
      checkAttributes_eq hctx hc₁ hscope hordered hmem]
    rfl

/-! ### Documents -/

omit hctx in
theorem unknownElements_eq {doc : Document} (hnested : doc.Nested) {id : ElementId} {e : Element}
    (he : doc.element? id = some e) :
    unknownElements doc id = some (Check.unknownElements doc id) := by
  have hchildren := elements_eq fun child hchild => (hnested.children he child hchild).2
  unfold unknownElements Check.unknownElements
  rw [he, Option.bind_eq_bind, Option.bind_some, hchildren, hnested.below_eq he]
  simp only [Option.bind_eq_bind, Option.bind_some, List.filterMap_filterMap]
  refine congrArg some (List.filterMap_congr fun child _ => ?_)
  cases doc.element? child <;> rfl

omit hctx in
theorem structureReports_eq {doc : Document} (hfits : doc.Fits ctx.schema) :
    structureReports ctx.schema doc = some (Check.structureReports ctx.schema doc) := by
  have hreports : ∀ bound ∈ Check.boundElements doc,
      structureOf ctx.schema doc bound.1 bound.2.1 bound.2.2 =
        some (Check.structureOf ctx.schema doc bound.1 bound.2.1 bound.2.2) := by
    intro bound hbound
    obtain ⟨he, hb⟩ := element?_of_mem_boundElements hbound
    unfold structureOf Check.structureOf
    rw [Array.getElem?_eq_getElem (hfits.bindings he _ hb).type, Option.bind_eq_bind,
      Option.bind_some, unknownElements_eq hfits.nested he]
    rfl
  rw [structureReports, boundElements_eq hfits.nested]
  simp only [Option.bind_eq_bind, Option.bind_some, mapM_eq_some hreports]
  rfl

theorem document_eq (hc : Coherent ctx h) {doc : Document} (hfits : doc.Fits ctx.schema)
    (hordered : ∀ {id : ElementId} {e : Element}, doc.element? id = some e →
      ∀ a ∈ e.attributes, a.Ordered) :
    document ctx h doc = some (Check.document ctx h doc) := by
  have hnames : inTurn (checkElement ctx doc) h (Check.boundElements doc) =
      some (Check.inTurn (Check.checkElement ctx doc) h (Check.boundElements doc)) := by
    refine inTurn_eq (steady_checkElement ctx doc) (fun bound hbound h hc => ?_) hc
    obtain ⟨he, hb⟩ := element?_of_mem_boundElements hbound
    exact checkElement_eq hctx hc doc (hfits.bindings he _ hb) (hordered he)
  unfold document
  simp only [Option.bind_eq_bind, boundElements_eq hfits.nested, Option.bind_some, hnames,
    structureReports_eq hfits]
  rfl

end

end Strict
end UILayout
