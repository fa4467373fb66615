import UILayout.Proofs.Strict.Walk
import UILayout.Proofs.Workspace.Again

/-!
# UILayout.Proofs.Outline.Links

What the value of an attribute refers to, and where that leads. Which kind of link a value is depends on
the value and on what it is read as; the descs that it leads to depend on the step at the offset, and
the targets are the elements that declare these descs.

* `valueTargets_eq`: the targets of a value are those of its link, or of the constant that it names.
* `definitionAt_eq`: where the value at an offset leads.
* `sites_descTargets`: the targets of a desc are its declarations, one by one.
* `targetsOf_definitionAt`: the definition of a link.
-/

namespace UILayout

open Schema Markup Namespace

namespace Outline

/-! ## Links -/

/-- What a value refers to, other than a constant. -/
inductive Link where
  | path (path : Selector.Path)
  | bind (bind : Selector.Bind)
  | template (value : String)
  | file (name : String)
  deriving DecidableEq

/-- The descs of the step of a path at an offset in the value. -/
def stepDescs (ctx : Context) (h : Hierarchy) (scope : DescId) (path : Selector.Path)
    (position : Nat) : List DescId :=
  ((path.fragmentAt? position).bind fun i => (h.resolve ctx scope path).1.items[i]?).getD []

/-- The desc of the step of a template path at an offset in the value. -/
def templateDesc? (ctx : Context) (value : String) (position : Nat) : Option DescId :=
  let path := Selector.Path.ofText value.toList
  (path.fragmentAt? position).bind fun i =>
    ctx.names.follow? Namespace.root ((path.fragmentTexts value.toList).take (i + 1))

namespace Link

/-- The link that a value is. One that is written like the name of a constant is a path when there is no
such constant and a path may stand there. -/
def ofValue? (names : Namespace) (builtin : Builtin) (value : String) : Option Link :=
  match Reference.ofValue? value with
  | some r =>
    match names.resolve? r, r with
    | none, .exact _ => if builtin.isSelector then some (.path (.ofText value.toList)) else none
    | _, _ => none
  | none =>
    match ValueForm.ofText value.toList with
    | .bind => some (.bind (.ofText value.toList))
    | _ =>
      match builtin with
      | .descTemplateName => some (.template value)
      | .fileDescName => some (.file value)
      | .descInternal | .frameReference => some (.path (.ofText value.toList))
      | _ => none

/-- The faults that are found when the link is read. -/
def problems : Link → List Selector.Problem
  | .path p => p.problems
  | .bind b => b.problems
  | .template value => (Selector.Path.ofText value.toList).problems
  | .file _ => []

/-- The descs that a link leads to, at an offset in the value. A path with faults leads to none; nobody
asks for those of a bind or of a template path. -/
def descs (ctx : Context) (h : Hierarchy) (scope : DescId) (position : Nat) : Link → List DescId
  | .path p => if p.hasProblems then [] else stepDescs ctx h scope p position
  | .bind b => stepDescs ctx h scope b.target position
  | .template value => (templateDesc? ctx value position).toList
  | .file name => (ctx.names.child? Namespace.root name).toList

end Link

/-- The targets of the constant that a value names. -/
def constantsOf (ctx : Context) (value : String) : List Target :=
  (((Reference.ofValue? value).bind ctx.names.resolve?).map (constantTargets ctx)).getD []

section

variable {ctx : Context} {h : Hierarchy} {scope : DescId} {builtin : Builtin} {value : String}
  {position : Nat}

theorem pathTargets_eq (path : Selector.Path) :
    (pathTargets ctx h scope path position).1 =
      (Link.descs ctx h scope position (.path path)).flatMap (descTargets ctx) := by
  unfold pathTargets Link.descs stepDescs
  dsimp only
  split
  · rfl
  · cases path.fragmentAt? position <;> rfl

/-- The target of a bind has no faults of its own, whatever is wrong with the bind. -/
theorem bindTargets_eq (text : List Char) :
    (pathTargets ctx h scope (Selector.Bind.ofText text).target position).1 =
      (Link.descs ctx h scope position (.bind (.ofText text))).flatMap (descTargets ctx) :=
  pathTargets_eq (Selector.Bind.ofText text).target

theorem templateTargets_eq :
    templateTargets ctx value position =
      (Link.descs ctx h scope position (.template value)).flatMap (descTargets ctx) := by
  unfold templateTargets Link.descs templateDesc?
  dsimp only
  cases (Selector.Path.ofText value.toList).fragmentAt? position with
  | none => rfl
  | some i =>
    dsimp only [Option.bind_some]
    generalize ctx.names.follow? Namespace.root _ = found
    cases found <;> simp

theorem fileTargets_eq :
    ((ctx.names.child? Namespace.root value).map (descTargets ctx)).getD [] =
      (Link.descs ctx h scope position (.file value)).flatMap (descTargets ctx) := by
  unfold Link.descs
  dsimp only
  cases ctx.names.child? Namespace.root value <;> simp

/-- A value leads to the declarations of the descs of its link, or to the constant that it names. -/
theorem valueTargets_eq (ctx : Context) (h : Hierarchy) (scope : DescId) (builtin : Builtin)
    (value : String) (position : Nat) :
    (valueTargets ctx h scope builtin value position).1 =
      match Link.ofValue? ctx.names builtin value with
      | some link => (link.descs ctx h scope position).flatMap (descTargets ctx)
      | none => constantsOf ctx value := by
  unfold valueTargets Link.ofValue? constantsOf
  cases Reference.ofValue? value with
  | some r =>
    dsimp only [Option.bind_some]
    cases ctx.names.resolve? r with
    | some c => rfl
    | none =>
      cases r with
      | racial name => rfl
      | exact name =>
        cases builtin.isSelector with
        | true => exact pathTargets_eq _
        | false => rfl
  | none =>
    dsimp only [Option.bind_none]
    cases ValueForm.ofText value.toList with
    | bind => exact bindTargets_eq _
    | _ =>
      cases builtin with
      | descTemplateName => exact templateTargets_eq
      | fileDescName => exact fileTargets_eq
      | descInternal => exact pathTargets_eq _
      | frameReference => exact pathTargets_eq _
      | _ => rfl

/-- A link leads to descs of the tree only. -/
theorem live_of_mem_descs (tree : IsTree ctx.names) (hc : Hierarchy.Coherent ctx h) {link : Link} {x : DescId}
    (hx : x ∈ link.descs ctx h scope position) : ∃ d, ctx.names.live? x = some d := by
  have hroot : ∃ d, ctx.names.live? Namespace.root = some d := by
    obtain ⟨d, hd, -⟩ := tree.live_root
    exact ⟨d, hd⟩
  have hstep : ∀ {path : Selector.Path}, x ∈ stepDescs ctx h scope path position →
      ∃ d, ctx.names.live? x = some d := by
    intro path hx
    cases hitem : (path.fragmentAt? position).bind fun i => (h.resolve ctx scope path).1.items[i]? with
    | none =>
      rw [stepDescs, hitem] at hx
      cases hx
    | some item =>
      rw [stepDescs, hitem] at hx
      obtain ⟨i, -, hi⟩ := Option.bind_eq_some_iff.1 hitem
      exact Strict.live_items tree hc path item (List.mem_of_getElem? hi) x hx
  cases link with
  | path p =>
    simp only [Link.descs] at hx
    split at hx
    · cases hx
    · exact hstep hx
  | bind b => exact hstep hx
  | template value =>
    obtain ⟨i, -, hfollow⟩ := Option.bind_eq_some_iff.1 (Option.mem_toList.1 hx)
    exact Hierarchy.live_of_follow? tree hroot hfollow
  | file name =>
    have hfollow : ctx.names.follow? Namespace.root [name] = some x := by
      rw [follow?, Option.mem_toList.1 hx]
      rfl
    exact Hierarchy.live_of_follow? tree hroot hfollow

end

/-! ## The value at an offset -/

/-- The value of an attribute of a bound element lies at an offset. -/
structure ValueAt (doc : Document) (offset : Nat) (id : ElementId) (e : Element) (b : Binding)
    (a : Attribute) (position : Nat) : Prop where
  innermost : doc.elementAt? offset = some id
  element : doc.element? id = some e
  bound : e.binding? = some b
  value : attributeAt? e offset = some (a, position)

section

variable {doc : Document} {offset : Nat} {id : ElementId} {e : Element} {b : Binding} {a : Attribute}
  {position : Nat}

theorem definitionAt_eq (hat : ValueAt doc offset id e b a position) (ctx : Context) (h : Hierarchy) :
    definitionAt ctx h doc offset = valueTargets ctx h (ctx.scopeOf (doc.ref id))
      (builtinOf ctx.schema b.type a.name) a.value position := by
  unfold definitionAt
  simp only [hat.innermost, hat.element, hat.bound, hat.value]

/-- Finds the value at an offset. -/
def valueAt? (doc : Document) (offset : Nat) :
    Option (ElementId × Element × Binding × Attribute × Nat) := do
  let id ← doc.elementAt? offset
  let e ← doc.element? id
  let b ← e.binding?
  let (a, position) ← attributeAt? e offset
  return (id, e, b, a, position)

theorem valueAt?_eq_some_iff :
    valueAt? doc offset = some (id, e, b, a, position) ↔ ValueAt doc offset id e b a position := by
  constructor
  · intro h
    obtain ⟨id', hid, h⟩ := Option.bind_eq_some_iff.1 h
    obtain ⟨e', he, h⟩ := Option.bind_eq_some_iff.1 h
    obtain ⟨b', hb, h⟩ := Option.bind_eq_some_iff.1 h
    obtain ⟨⟨a', position'⟩, ha, h⟩ := Option.bind_eq_some_iff.1 h
    cases h
    exact ⟨hid, he, hb, ha⟩
  · rintro ⟨hid, he, hb, ha⟩
    simp [valueAt?, hid, he, hb, ha]

theorem exists_valueAt {α : Type} {doc? : Option Document}
    {f : ElementId × Element × Binding × Attribute × Nat → α} {found : α}
    (h : (doc?.bind (valueAt? · offset)).map f = some found) :
    ∃ doc id e b a position, doc? = some doc ∧ ValueAt doc offset id e b a position ∧
      f (id, e, b, a, position) = found := by
  obtain ⟨⟨id, e, b, a, position⟩, hvalue, heq⟩ := Option.map_eq_some_iff.1 h
  obtain ⟨doc, hdoc, hvalue⟩ := Option.bind_eq_some_iff.1 hvalue
  exact ⟨doc, id, e, b, a, position, hdoc, valueAt?_eq_some_iff.1 hvalue, heq⟩

end

/-! ## Declarations -/

/-- A target is the element that makes a declaration of a desc. -/
def Target.Declares (ctx : Context) (d : Desc) (site : Site) (t : Target) : Prop :=
  ∃ e, ctx.element? site.element = some e ∧ t = ⟨site.element.document, e.span, nameSpan e, d.path⟩

/-- Some targets are all declarations of some descs, in their order. -/
def TargetsOf (ctx : Context) (descs : List DescId) (targets : List Target) : Prop :=
  targets = descs.flatMap (descTargets ctx) ∧
    ∀ x ∈ descs, ∃ d, ctx.names.live? x = some d ∧
      List.Forall₂ (fun site t => t.Declares ctx d site) d.sites (descTargets ctx x)

end Outline

namespace Workspace

variable (s : Schema) (commands : List Command) {id : DocumentId} {doc : Document}

theorem definitionAt_eq {w : Workspace} (hdoc : w.context.document? id = some doc) (offset : Nat) :
    (w.definitionAt id offset).1 = (Outline.definitionAt w.context w.hierarchy doc offset).1 := by
  unfold Workspace.definitionAt
  rw [hdoc]
  rfl

/-- A declaration is one of an element, in a document that is there. -/
theorem exists_siteOf {desc : DescId} {d : Desc} {site : Site}
    (hd : (after s commands).context.names.live? desc = some d) (hs : site ∈ d.sites) :
    ∃ doc e, (after s commands).context.document? site.element.document = some doc ∧
      doc.element? site.element.element = some e ∧
      site = Entering.siteOf doc site.element.element e := by
  obtain ⟨history, hnames, hcurrent⟩ := stepped_after s commands
  obtain ⟨path, hpath⟩ := (valid_after s commands).settled.tree.exists_path hd
  have hholds : (after s commands).context.names.Holds (.site path site) := ⟨desc, d, hd, hpath, hs⟩
  rw [hnames, holds_of_document history rfl] at hholds
  obtain ⟨s', doc, hcur, hlisted⟩ := hholds
  obtain ⟨element, e, he, hsite⟩ := (listing_within s' doc).sites _ hlisted
  rw [hcurrent] at hcur
  obtain ⟨doc', hdoc, heq⟩ := Option.map_eq_some_iff.1 hcur
  cases heq
  have helement : site.element.element = element := by rw [show site = _ from hsite]; rfl
  subst helement
  exact ⟨doc, e, hdoc, he, hsite⟩

/-- What has been declared is declared by an element of a document that is there. -/
theorem exists_element_of_site {desc : DescId} {d : Desc} {site : Site}
    (hd : (after s commands).context.names.live? desc = some d) (hs : site ∈ d.sites) :
    ∃ e, (after s commands).context.element? site.element = some e := by
  obtain ⟨doc, e, hdoc, he, -⟩ := exists_siteOf s commands hd hs
  refine ⟨e, ?_⟩
  rw [Context.element?, hdoc]
  exact he

/-- The targets of a desc are the elements that declare it, in the order of the declarations. -/
theorem sites_descTargets {desc : DescId} {d : Desc}
    (hd : (after s commands).context.names.live? desc = some d) :
    List.Forall₂ (fun site t => t.Declares (after s commands).context d site) d.sites
      (Outline.descTargets (after s commands).context desc) := by
  have hall : ∀ site ∈ d.sites, ∃ e, (after s commands).context.element? site.element = some e :=
    fun site hs => exists_element_of_site s commands hd hs
  unfold Outline.descTargets
  rw [(live?_eq_some_iff.1 hd).1]
  dsimp only
  generalize d.sites = sites at hall
  induction sites with
  | nil => exact .nil
  | cons site rest ih =>
    obtain ⟨e, he⟩ := hall site List.mem_cons_self
    rw [List.filterMap_cons, Outline.targetAt?, he]
    exact .cons ⟨e, he, rfl⟩ (ih fun site' hs => hall site' (List.mem_cons_of_mem site hs))

/-- A desc has targets, unless it is the root. -/
theorem descTargets_eq_nil_iff {desc : DescId} {d : Desc}
    (hd : (after s commands).context.names.live? desc = some d) :
    Outline.descTargets (after s commands).context desc = [] ↔ desc = Namespace.root := by
  have hn := (valid_after s commands).settled
  obtain ⟨hget, hlive⟩ := live?_eq_some_iff.1 hd
  have hsites := sites_descTargets s commands hd
  constructor
  · intro hnil
    rw [hnil] at hsites
    by_contra hne
    exact hn.declared hget hlive hne (List.forall₂_nil_right_iff.1 hsites)
  · rintro rfl
    rw [hn.anchored.root hget] at hsites
    exact List.forall₂_nil_left_iff.1 hsites

/-- The definition of a link is all declarations of the descs that it leads to. -/
theorem targetsOf_definitionAt {offset : Nat} {element : ElementId} {e : Element} {b : Binding}
    {a : Attribute} {position : Nat} {link : Outline.Link}
    (hdoc : (after s commands).context.document? id = some doc)
    (hat : Outline.ValueAt doc offset element e b a position)
    (hlink : let ctx := (after s commands).context
      Outline.Link.ofValue? ctx.names (Outline.builtinOf ctx.schema b.type a.name) a.value = some link) :
    let w := after s commands
    Outline.TargetsOf w.context
      (link.descs w.context w.hierarchy (w.context.scopeOf (doc.ref element)) position)
      (w.definitionAt id offset).1 := by
  intro w
  have hv := valid_after s commands
  refine ⟨?_, fun x hx => ?_⟩
  · rw [Workspace.definitionAt_eq hdoc, Outline.definitionAt_eq hat, Outline.valueTargets_eq, hlink]
  · obtain ⟨d, hd⟩ := Outline.live_of_mem_descs hv.settled.tree hv.coherent hx
    exact ⟨d, hd, sites_descTargets s commands hd⟩

end Workspace
end UILayout
