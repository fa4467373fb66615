import UILayout.Proofs.Hierarchy.Reach
import UILayout.Proofs.Namespace.WellFormed
import UILayout.Proofs.Strict.Tables

/-!
# UILayout.Proofs.Strict.Nodes

Strict forms of what is asked of the namespace, and of making nodes.

* `Whole`: what a context has to hold for nothing to be missing.
* `handle_eq`, `frameTypeOf_eq`: questions to the namespace.
* `ofDescs_eq`: following links.
* `makeNode_eq`: making a node.
-/

namespace UILayout
namespace Strict

open Schema Markup Namespace Hierarchy

/-- Nothing is missing that the schema, the namespace and the documents refer to. -/
structure Whole (ctx : Context) : Prop where
  schema : ctx.schema.Closed
  names : Settled ctx.names
  documents : ∀ {id : DocumentId} {doc : Document}, ctx.document? id = some doc → doc.Fits ctx.schema
  sites : ∀ {id : DescId} {d : Desc}, ctx.names.live? id = some d → ∀ site ∈ d.sites, ∀ type,
    site.type? = some type → type < ctx.schema.complexTypes.size

/-! ## Descs -/

def handle (n : Namespace) (name : String) : Option (Option Handle) :=
  match n.handles.get? name with
  | none => some none
  | some handles => handles.findM? fun h => n.descs[h.desc]?.map (·.live)

def frameTypeOf (ctx : Context) (id : DescId) : Option (Option FrameType) :=
  entry ctx.schema.frameTypes (((ctx.names.live? id).bind (·.type?)).bind ctx.schema.frameTypeOf?)

/-! ## Links -/

def templateLink (n : Namespace) (value : String) : Option Links := do
  let names := Text.pathNames value
  let read := trail n Namespace.root names
  match n.follow? Namespace.root names with
  | none => return ⟨[], read, false⟩
  | some target =>
    let k ← n.kind? target
    return ⟨if k = .file then [] else [target], read, false⟩

def siteLinks (ctx : Context) (d : Desc) (site : Site) : Option Links :=
  match ctx.element? site.element with
  | none => some .none
  | some e => do
    let template ←
      match e.value? "template" with
      | none => some .none
      | some value => templateLink ctx.names value
    return template.append
      (((e.value? "file").map fun file => fileLink ctx.names file d.name).getD .none)

def descLinks (ctx : Context) (d : Desc) : Option Links :=
  (d.sites.mapM (siteLinks ctx d)).map (·.foldr Links.append .none)

/-- With each desc that is seen there is one less to see. -/
theorem countP_fresh_lt {seen : List Nat} {id size : Nat} (hid : id < size) (hs : id ∉ seen) :
    (List.range size).countP (fun i => decide (i ∉ id :: seen)) <
      (List.range size).countP (fun i => decide (i ∉ seen)) := by
  have hmem : id ∈ List.range size := List.mem_range.2 hid
  generalize List.range size = ids at hmem
  induction ids with
  | nil => simp at hmem
  | cons i rest ih =>
    have hle : rest.countP (fun i => decide (i ∉ id :: seen)) ≤
        rest.countP (fun i => decide (i ∉ seen)) := by
      apply List.countP_mono_left
      intro x _ hx
      simp only [List.mem_cons, not_or, decide_eq_true_eq] at hx ⊢
      exact hx.2
    by_cases hi : i = id
    · subst hi
      simp only [List.countP_cons, List.mem_cons, true_or, not_true_eq_false, decide_false,
        hs, not_false_eq_true, decide_true]
      simp only [List.mem_cons] at hle
      simp
      simpa using Nat.lt_succ_of_le hle
    · have hrest : id ∈ rest := by
        rcases List.mem_cons.1 hmem with h | h
        · exact absurd h.symm hi
        · exact h
      have := ih hrest
      simp only [List.countP_cons]
      by_cases hx : i ∈ seen
      · simp [hx, hi] at this ⊢
        exact this
      · simp [hx, hi] at this ⊢
        exact this

/-- The links of a desc are known only when they have been read, so the search is measured by the descs
that have not been seen. -/
def fromQueue (ctx : Context) (seen : List DescId) : List (DescId × Bool) → Option Reach
  | [] => some .none
  | (id, own) :: rest =>
    if _hs : id ∈ seen then fromQueue ctx seen rest
    else
      match _hd : ctx.names.live? id with
      | none => (fromQueue ctx seen rest).map fun r => { r with read := id :: r.read }
      | some d =>
        (descLinks ctx d).bind fun links =>
          (fromQueue ctx (id :: seen) (rest ++ links.targets.map (·, false))).map (.cons id own links)
  termination_by queue =>
    ((List.range ctx.names.descs.size).countP (fun i => decide (i ∉ seen)), queue.length)
  decreasing_by
    · exact Prod.Lex.right _ (by simp)
    · exact Prod.Lex.right _ (by simp)
    · exact Prod.Lex.left _ _ (countP_fresh_lt (Reach.lt_size_of_live? _hd) _hs)

def ofDescs (ctx : Context) (descs : List DescId) : Option Reach :=
  fromQueue ctx [] (descs.map (·, true))

/-! ## Making nodes -/

/-- The bound children of an element. -/
def partsOf (ctx : Context) (doc : Document) (e : Element) :
    Option (List (SlotKind × ElementRef × Element)) := do
  let children ← elements doc e.children
  let found ← children.mapM fun x =>
    match x.2.binding? with
    | none => some none
    | some b => (slotKind ctx.schema b.slot).map fun k => some (k, doc.ref x.1, x.2)
  return found.filterMap id

def parts (ctx : Context) (sources : List DescId) :
    Option (List (SlotKind × ElementRef × Element)) := do
  let sites := (sources.filterMap ctx.names.live?).flatMap (·.sites)
  let found ← sites.mapM fun site =>
    match ctx.document? site.element.document with
    | none => some []
    | some doc =>
      match doc.element? site.element.element with
      | none => some []
      | some e => partsOf ctx doc e
  return found.flatten

/-- The kind of the main desc and the parts are read; what is made of them follows no numbers. -/
def detailOf (ctx : Context) (main : DescId) (sources : List DescId) : Option Detail := do
  let _ ← ctx.names.kind? main
  let _ ← parts ctx sources
  return Hierarchy.detailOf ctx main sources

def makeNode (ctx : Context) (name : String) (descs : List DescId) (parent : NodeId) :
    Option (Except (List DescId) Node) := do
  let reach ← ofDescs ctx descs
  match descs with
  | [] => return .error reach.read
  | main :: _ =>
    if reach.broken then return .error reach.read
    let detail ← detailOf ctx main reach.sources
    return .ok
      { name := name
        main := main
        descs := descs
        parent? := some parent
        detail := detail
        sources := reach.sources
        read := reach.read
        children? := none
        live := true }

/-! ## Nothing is missing -/

section

variable {ctx : Context}

theorem kind?_of_live {n : Namespace} {id : DescId} {d : Desc} (h : n.live? id = some d) :
    n.kind? id = some d.kind := by
  rw [Namespace.kind?, (live?_eq_some_iff.1 h).1]
  rfl

theorem frameTypeOf_eq (ctx : Context) (id : DescId) : frameTypeOf ctx id = some (ctx.frameTypeOf? id) :=
  entry_eq fun frame hframe => by
    obtain ⟨type, -, hfound⟩ := Option.bind_eq_some_iff.1 hframe
    exact (Array.findIdx?_eq_some_iff_getElem.1 hfound).1

variable (hctx : Whole ctx)

include hctx

theorem handle_eq (name : String) : handle ctx.names name = some (ctx.names.handle? name) := by
  unfold handle Namespace.handle?
  cases hget : ctx.names.handles.get? name with
  | none => rfl
  | some handles =>
    refine findM?_eq_some fun x hx => ?_
    have hmem : x ∈ ctx.names.allHandles :=
      List.mem_flatten.2 ⟨handles, OrderedMap.mem_values_of_get? hget, hx⟩
    obtain ⟨d, hd⟩ := hctx.names.live_handle hmem
    rw [hd, (live?_eq_some_iff.1 hd).1, Option.map_some, (live?_eq_some_iff.1 hd).2]
    rfl

theorem templateLink_eq (value : String) :
    templateLink ctx.names value = some (Hierarchy.templateLink ctx.names value) := by
  unfold templateLink Hierarchy.templateLink
  cases htarget : ctx.names.follow? Namespace.root (Text.pathNames value) with
  | none =>
    simp only [htarget]
    rfl
  | some target =>
    obtain ⟨r, hr, -⟩ := hctx.names.tree.live_root
    obtain ⟨d, hd⟩ := live_of_follow? hctx.names.tree ⟨r, hr⟩ htarget
    simp only [htarget, kind?_of_live hd, Option.bind_eq_bind, Option.bind_some, Option.filter_some]
    by_cases hfile : d.kind = .file
    · simp [hfile]
    · simp [hfile]

theorem siteLinks_eq (d : Desc) (site : Site) :
    siteLinks ctx d site = some (Hierarchy.siteLinks ctx d site) := by
  unfold siteLinks Hierarchy.siteLinks
  cases ctx.element? site.element with
  | none => rfl
  | some e =>
    dsimp only
    cases e.value? "template" with
    | none => rfl
    | some value =>
      simp only [templateLink_eq hctx]
      rfl

theorem descLinks_eq (d : Desc) : descLinks ctx d = some (Hierarchy.descLinks ctx d) := by
  rw [descLinks, mapM_eq_some fun site _ => siteLinks_eq hctx d site, Option.map_some,
    List.foldr_map]
  rfl

theorem fromQueue_eq (seen : List DescId) (queue : List (DescId × Bool)) :
    fromQueue ctx seen queue = some (Reach.fromQueue ctx seen queue) := by
  induction seen, queue using Reach.fromQueue.induct ctx with
  | case1 seen => rw [fromQueue, Reach.fromQueue_nil]
  | case2 seen id own rest hs ih =>
    rw [fromQueue, Reach.fromQueue_seen hs, dif_pos hs, ih]
  | case3 seen id own rest hs hd ih =>
    rw [fromQueue, Reach.fromQueue_gone hs hd, dif_neg hs, ih]
    split
    · rfl
    · rename_i d hd'
      rw [hd] at hd'
      cases hd'
  | case4 seen id own rest hs d hd links =>
    rename_i ih
    rw [fromQueue, Reach.fromQueue_live hs hd, dif_neg hs]
    split
    · rename_i hd'
      rw [hd] at hd'
      cases hd'
    · rename_i d' hd'
      rw [hd] at hd'
      cases hd'
      rw [descLinks_eq hctx, Option.bind_some, ih]
      rfl

theorem ofDescs_eq (descs : List DescId) : ofDescs ctx descs = some (Reach.ofDescs ctx descs) :=
  fromQueue_eq hctx [] _

theorem partsOf_eq {id : DocumentId} {doc : Document} (hdoc : ctx.document? id = some doc)
    {element : ElementId} {e : Element} (he : doc.element? element = some e) :
    partsOf ctx doc e = some ((doc.below element).filterMap fun child =>
      (doc.element? child).bind fun e =>
        e.binding?.map fun b => (ctx.schema.slotKind b.slot, doc.ref child, e)) := by
  have hfits := hctx.documents hdoc
  have hchildren := elements_eq fun child hchild => (hfits.nested.children he child hchild).2
  have hfound := mapM_eq_some
    (l := e.children.filterMap fun child => (doc.element? child).map (child, ·))
    (f := fun x => match x.2.binding? with
      | none => some none
      | some b => (slotKind ctx.schema b.slot).map fun k => some (k, doc.ref x.1, x.2))
    (g := fun x => x.2.binding?.map fun b => (ctx.schema.slotKind b.slot, doc.ref x.1, x.2)) ?_
  · rw [partsOf, hchildren, hfits.nested.below_eq he]
    simp only [Option.bind_eq_bind, Option.bind_some, hfound, List.filterMap_map,
      List.filterMap_filterMap]
    refine congrArg some (List.filterMap_congr fun child _ => ?_)
    cases doc.element? child <;> rfl
  · intro x hx
    obtain ⟨child, -, hx⟩ := List.mem_filterMap.1 hx
    obtain ⟨element, helement, rfl⟩ := Option.map_eq_some_iff.1 hx
    cases hbinding : element.binding? with
    | none => rfl
    | some b =>
      simp only [slotKind_eq (hfits.bindings helement b hbinding).slot]
      rfl

theorem parts_eq (sources : List DescId) : parts ctx sources = some (Hierarchy.parts ctx sources) := by
  have hsite : ∀ site ∈ (sources.filterMap ctx.names.live?).flatMap (·.sites),
      (match ctx.document? site.element.document with
        | none => some []
        | some doc =>
          match doc.element? site.element.element with
          | none => some []
          | some e => partsOf ctx doc e) =
        some (match ctx.document? site.element.document with
          | none => []
          | some doc => (doc.below site.element.element).filterMap fun child =>
            (doc.element? child).bind fun e =>
              e.binding?.map fun b => (ctx.schema.slotKind b.slot, doc.ref child, e)) := by
    intro site _
    cases hdoc : ctx.document? site.element.document with
    | none => rfl
    | some doc =>
      dsimp only
      cases he : doc.element? site.element.element with
      | none => simp only [Document.below, he, List.filterMap_nil]
      | some e => exact partsOf_eq hctx hdoc he
  unfold parts Hierarchy.parts
  dsimp only
  rw [mapM_eq_some hsite]
  simp only [Option.bind_eq_bind, Option.bind_some, ← List.flatMap_def, List.flatMap_assoc]
  rfl

theorem detailOf_eq {main : DescId} {d : Desc} (hmain : ctx.names.live? main = some d)
    (sources : List DescId) : detailOf ctx main sources = some (Hierarchy.detailOf ctx main sources) := by
  rw [detailOf, kind?_of_live hmain, parts_eq hctx]
  rfl

theorem makeNode_eq (name : String) {descs : List DescId}
    (hdescs : ∀ id ∈ descs, ∃ d, ctx.names.live? id = some d) (parent : NodeId) :
    makeNode ctx name descs parent = some (Hierarchy.makeNode ctx name descs parent) := by
  unfold makeNode Hierarchy.makeNode
  rw [ofDescs_eq hctx]
  simp only [Option.bind_eq_bind, Option.bind_some]
  cases descs with
  | nil => rfl
  | cons main rest =>
    dsimp only
    split
    · rfl
    · obtain ⟨d, hd⟩ := hdescs main List.mem_cons_self
      rw [detailOf_eq hctx hd]
      rfl

end

end Strict
end UILayout
