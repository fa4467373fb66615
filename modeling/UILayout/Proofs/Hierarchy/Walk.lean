import Mathlib.Data.List.Forall2
import UILayout.Hierarchy.Resolve
import UILayout.Proofs.Hierarchy.Denote

/-!
# UILayout.Proofs.Hierarchy.Walk

Walking from node to node, said of views alone: no node is looked up, and none is kept. Walks over a
coherent hierarchy find what these definitions say, whatever nodes have been made before.

* `Coherent.children`, `Coherent.ofDesc`, `Coherent.step`: walks over nodes.
-/

namespace UILayout
namespace Hierarchy

open Namespace Schema Markup Selector

/-! ## Walks over views -/

def childrenViews (ctx : Context) (l : List View) : List (List View) :=
  match l with
  | [] => []
  | v :: _ => (v.slots ctx).keys.filterMap (childViews? ctx l)

def descendViews? (ctx : Context) (l : List View) : List String → Option (List View)
  | [] => some l
  | name :: rest => (childViews? ctx l name).bind (descendViews? ctx · rest)

def viewsOfDesc? (ctx : Context) (id : DescId) : Option (List View) :=
  (namesUp? ctx.names id).bind fun names => descendViews? ctx [.root] names.reverse

/-- The views of the nodes around a node. -/
def around : List View → List (List View)
  | [] | [_] => []
  | _ :: v :: rest => (v :: rest) :: around (v :: rest)

namespace View

def isFrame (v : View) : Bool := v.detail.kind = .frame

def frameType? (ctx : Context) (v : View) : Option FrameType :=
  (match v.detail with
    | .frame type? => type?
    | _ => none).bind (ctx.schema.frameTypes[·]?)

def passes (ctx : Context) (v : View) (p : Param) : Bool :=
  match p.filter? with
  | some .name => v.name = p.value.text
  | some .type => (v.frameType? ctx).any (·.name = p.value.text)
  | some .ofType => (v.frameType? ctx).any fun f => isOfKind ctx.schema f p.value.text
  | none => false

end View

/-- Does the nearest of some views pass a test? -/
def headIs (test : View → Bool) (l : List View) : Bool := l.head?.any test

def stepViews? (ctx : Context) (l : List View) : Step → Option (List View)
  | .this => some l
  | .parent => (around l).head?
  | .root => some [.root]
  | .layer => ((l :: around l).filter (headIs View.isFrame)).getLast?
  | .ancestor params => (around l).find? (headIs fun v => params.all (v.passes ctx))
  | .child name => childViews? ctx l name.text
  | .sibling name => ((around l).head?.bind (childViews? ctx · name.text)).filter fun _ =>
      l.head?.all (·.name ≠ name.text)
  | .handle name =>
    match ctx.names.handle? name.text with
    | some handle => viewsOfDesc? ctx handle.desc
    | none => childViews? ctx l name.text

def selectViews (ctx : Context) (l : List View) : List Fragment → List (List View)
  | [] => []
  | f :: rest =>
    match stepViews? ctx l f.step with
    | some next => next :: selectViews ctx next rest
    | none => []

/-! ## Walks over nodes -/

section

variable {ctx : Context} {h h' : Hierarchy} {id : NodeId} {l : List View}

theorem NodesAre.mono {ids : List NodeId} {ls : List (List View)} (hd : NodesAre h ids ls)
    (he : Extends h h') : NodesAre h' ids ls :=
  List.Forall₂.imp (fun _ _ hd => hd.mono he) hd

/-- An answer that is worked out from a first one. -/
theorem Yields.trans {α β γ δ : Type} {R : Hierarchy → α → β → Prop} {S : Hierarchy → γ → δ → Prop}
    {r : α × Hierarchy} {out : β} {r' : γ × Hierarchy} {out' : δ} (hr : Yields ctx R h r out)
    (hr' : Yields ctx S r.2 r' out') : Yields ctx S h r' out' :=
  ⟨hr'.coherent, hr.grows.trans hr'.grows, hr'.answer⟩

namespace NodesAre

variable {ids : List NodeId} {ls : List (List View)}

theorem exists_denotes (hd : NodesAre h ids ls) : ∀ id ∈ ids, ∃ l, h.Denotes id l := by
  induction hd with
  | nil => exact nofun
  | cons hd _ ih =>
    intro id hid
    rcases List.mem_cons.1 hid with rfl | hid
    · exact ⟨_, hd⟩
    · exact ih id hid

theorem filter (hd : NodesAre h ids ls) {p : NodeId → Bool} {q : List View → Bool}
    (hpq : ∀ {id : NodeId} {l : List View}, h.Denotes id l → p id = q l) :
    NodesAre h (ids.filter p) (ls.filter q) := by
  induction hd with
  | nil => exact .nil
  | cons hd _ ih =>
    rw [List.filter_cons, List.filter_cons, hpq hd]
    split
    · exact .cons hd ih
    · exact ih

theorem find? (hd : NodesAre h ids ls) {p : NodeId → Bool} {q : List View → Bool}
    (hpq : ∀ {id : NodeId} {l : List View}, h.Denotes id l → p id = q l) :
    NodeIs h (ids.find? p) (ls.find? q) := by
  induction hd with
  | nil => exact .none
  | cons hd _ ih =>
    rw [List.find?_cons, List.find?_cons, hpq hd]
    split
    · exact .some hd
    · exact ih

theorem getLast? (hd : NodesAre h ids ls) : NodeIs h ids.getLast? ls.getLast? := by
  induction hd with
  | nil => exact .none
  | @cons id l ids ls hd _ ih =>
    rw [List.getLast?_cons, List.getLast?_cons]
    generalize ids.getLast? = a at ih
    generalize ls.getLast? = b at ih
    cases ih with
    | none => exact .some hd
    | some hd' => exact .some hd'

/-- What is read from the nodes that are answered is read from their views. -/
theorem map_node? {α : Type} (hd : NodesAre h ids ls) (f : View → α) (a : α) :
    (ids.map fun id => ((h.node? id).map fun n => f n.view).getD a) =
      ls.map fun l => (l.head?.map f).getD a := by
  induction hd with
  | nil => rfl
  | cons hd _ ih =>
    obtain ⟨n, rest, hn, rfl, -⟩ := hd.exists_node
    rw [List.map_cons, List.map_cons, ih, node?_of_live? hn]
    rfl

end NodesAre

namespace Coherent

/-- A hierarchy has its root made, or no node has been made as a root. -/
theorem rootNode (hc : Coherent ctx h) :
    Yields ctx Denotes h h.rootNode [View.root] := by
  unfold Hierarchy.rootNode
  cases hr : h.root? with
  | some r =>
    obtain ⟨n, hn, hp⟩ := hc.root hr
    have hview : n.view = .root := ((hc.hung hn).root hp).2
    simp only [Option.filter_some, hn, Option.isSome_some, if_true]
    refine ⟨hc, .refl h, ?_⟩
    rw [← hview]
    exact .top hn hp
  | none =>
    obtain ⟨hc', he, hnew⟩ := hc.withRoot hr
    exact ⟨hc', he, .top hnew rfl⟩

theorem childrenNamed (hc : Coherent ctx h) (hd : h.Denotes id l) (names : List String) :
    Yields ctx NodesAre h (h.childrenNamed ctx id names) (names.filterMap (childViews? ctx l)) := by
  induction names generalizing h with
  | nil => exact ⟨hc, .refl h, .nil⟩
  | cons name rest ih =>
    have hfirst := hc.child hd name
    have hmore := ih hfirst.coherent (hd.mono hfirst.grows)
    refine ⟨hmore.coherent, hfirst.grows.trans hmore.grows, ?_⟩
    have hanswer := hfirst.answer
    unfold Hierarchy.childrenNamed
    generalize h.child ctx id name = r at hfirst hmore hanswer
    obtain ⟨c, h₁⟩ := r
    rw [List.filterMap_cons]
    generalize childViews? ctx l name = out at hanswer
    cases hanswer with
    | none => exact hmore.answer
    | some hd' => exact .cons (hd'.mono hmore.grows) hmore.answer

theorem children (hc : Coherent ctx h) (hd : h.Denotes id l) :
    Yields ctx NodesAre h (h.children ctx id) (childrenViews ctx l) := by
  obtain ⟨n₀, rest, hn₀, rfl, -⟩ := hd.exists_node
  obtain ⟨hc₁, he₁, hn⟩ := hc.expand hn₀
  obtain ⟨m, hm⟩ := children?_expanded ctx n₀
  have hview : (n₀.expanded ctx).view = n₀.view := (learns_expanded ctx (live?_eq_some_iff.1 hn₀).2).view
  have hkeys := (hc₁.stocked hn).keys hm
  rw [hview] at hkeys
  have hnamed := hc₁.childrenNamed (hd.mono he₁) (n₀.view.slots ctx).keys
  unfold Hierarchy.children
  simp only [node?_of_live? hn, Option.bind_some, hm, Option.map_some, Option.getD_some, hkeys]
  exact ⟨hnamed.coherent, he₁.trans hnamed.grows, hnamed.answer⟩

theorem descend (hc : Coherent ctx h) (hd : h.Denotes id l) (names : List String) :
    Yields ctx NodeIs h (h.descend ctx id names) (descendViews? ctx l names) := by
  induction names generalizing h id l with
  | nil => exact ⟨hc, .refl h, .some hd⟩
  | cons name rest ih =>
    have hfirst := hc.child hd name
    unfold Hierarchy.descend descendViews?
    obtain ⟨hc₁, he₁, hanswer⟩ := hfirst
    generalize h.child ctx id name = r at hc₁ he₁ hanswer
    obtain ⟨c, h₁⟩ := r
    generalize childViews? ctx l name = out at hanswer
    cases hanswer with
    | none => exact ⟨hc₁, he₁, .none⟩
    | some hd' =>
      have hmore := ih hc₁ hd'
      exact ⟨hmore.coherent, he₁.trans hmore.grows, hmore.answer⟩

theorem ofDesc (hc : Coherent ctx h) (desc : DescId) :
    Yields ctx NodeIs h (h.ofDesc ctx desc) (viewsOfDesc? ctx desc) := by
  unfold Hierarchy.ofDesc viewsOfDesc?
  cases namesUp? ctx.names desc with
  | none => exact ⟨hc, .refl h, .none⟩
  | some names =>
    have hroot := hc.rootNode
    exact hroot.trans (hroot.coherent.descend hroot.answer names.reverse)

/-! ### Nodes around a node -/

theorem ancestors (hc : Coherent ctx h) (hd : h.Denotes id l) :
    NodesAre h (h.ancestors id) (around l) := by
  induction hd with
  | top hn hp =>
    rw [Hierarchy.ancestors, parent?, node?_of_live? hn, Option.bind_some, hp]
    exact .nil
  | @under id p n l hn hp rest ih =>
    obtain ⟨hlt, -⟩ := (hc.hung hn).parent hp
    obtain ⟨_, _, -, rfl, -⟩ := rest.exists_node
    rw [Hierarchy.ancestors, parent?, node?_of_live? hn, Option.bind_some, hp]
    simp only [hlt, if_true]
    exact .cons rest ih

theorem parentIs (hd : h.Denotes id l) : NodeIs h (h.parent? id) (around l).head? := by
  cases hd with
  | top hn hp =>
    rw [Hierarchy.parent?, node?_of_live? hn, Option.bind_some, hp]
    exact .none
  | under hn hp rest =>
    obtain ⟨_, _, -, rfl, -⟩ := rest.exists_node
    rw [Hierarchy.parent?, node?_of_live? hn, Option.bind_some, hp]
    exact .some rest

theorem isFrame_eq (hd : h.Denotes id l) : h.isFrame id = headIs View.isFrame l := by
  obtain ⟨n, rest, hn, rfl, -⟩ := hd.exists_node
  simp only [Hierarchy.isFrame, node?_of_live? hn, headIs, List.head?_cons, Option.any_some]
  rfl

theorem frameType?_eq (hd : h.Denotes id l) :
    h.frameType? ctx id = l.head?.bind (·.frameType? ctx) := by
  obtain ⟨n, rest, hn, rfl, -⟩ := hd.exists_node
  simp only [Hierarchy.frameType?, node?_of_live? hn, List.head?_cons, Option.bind_some]
  rfl

theorem passes_eq (hd : h.Denotes id l) (p : Param) :
    h.passes ctx id p = headIs (·.passes ctx p) l := by
  have htype : h.frameType? ctx id = l.head?.bind (·.frameType? ctx) := frameType?_eq hd
  obtain ⟨n, rest, hn, rfl, -⟩ := hd.exists_node
  simp only [Hierarchy.passes, headIs, List.head?_cons, Option.any_some, View.passes, htype,
    Option.bind_some, node?_of_live? hn]
  rfl

theorem layer? (hc : Coherent ctx h) (hd : h.Denotes id l) :
    NodeIs h (h.layer? id) ((l :: around l).filter (headIs View.isFrame)).getLast? :=
  (NodesAre.filter (.cons hd (hc.ancestors hd)) isFrame_eq).getLast?

theorem ancestor? (hc : Coherent ctx h) (hd : h.Denotes id l) (params : List Param) :
    NodeIs h ((h.ancestors id).find? fun a => params.all (h.passes ctx a))
      ((around l).find? (headIs fun v => params.all (v.passes ctx))) := by
  refine (hc.ancestors hd).find? ?_
  intro a la hda
  obtain ⟨v, rest, -, rfl, -⟩ := hda.exists_node
  have hall : h.passes ctx a = fun p => v.view.passes ctx p := funext (passes_eq hda)
  rw [hall]
  rfl

/-- A node is what asking its parent for a child of its name leads to. -/
theorem childViews?_self (hc : Coherent ctx h) {p : NodeId} {n : Node} (hn : h.live? id = some n)
    (hp : n.parent? = some p) (hd : h.Denotes p l) : childViews? ctx l n.name = some (n.view :: l) := by
  obtain ⟨pn, hpn, hslot⟩ := hc.slot_of_parent hn hp
  obtain ⟨pn', rest, hpn', rfl, -⟩ := hd.exists_node
  rw [hpn] at hpn'
  cases hpn'
  rw [childViews?, List.head?_cons, Option.bind_some, View.child?, hslot, Option.bind_some,
    ((hc.hung hn).made hp).1, Option.map_some]

theorem name_of_childViews? {name : String} {l' : List View} (h : childViews? ctx l name = some l') :
    l'.head?.map (·.name) = some name := by
  obtain ⟨v, -, hv⟩ := Option.bind_eq_some_iff.1 h
  obtain ⟨v', hv', rfl⟩ := Option.map_eq_some_iff.1 hv
  obtain ⟨descs, -, hview⟩ := Option.bind_eq_some_iff.1 hv'
  rw [List.head?_cons, Option.map_some, (name_of_viewOf? hview).1]

/-- A node is the child of its own name, so the sibling of that name is no other node. -/
theorem sibling? (hc : Coherent ctx h) (hd : h.Denotes id l) (name : Ident) :
    Yields ctx NodeIs h (h.step ctx id (.sibling name)) (stepViews? ctx l (.sibling name)) := by
  simp only [Hierarchy.step, stepViews?]
  cases hd with
  | top hn hp =>
    rw [Hierarchy.parent?, node?_of_live? hn, Option.bind_some, hp]
    exact ⟨hc, .refl h, .none⟩
  | @under id p n l hn hp rest =>
    have hself := hc.childViews?_self hn hp rest
    have hchild := hc.child rest name.text
    have hd : h.Denotes id (n.view :: l) := .under hn hp rest
    obtain ⟨v, more, -, rfl, -⟩ := rest.exists_node
    rw [Hierarchy.parent?, node?_of_live? hn, Option.bind_some, hp]
    simp only [around, List.head?_cons, Option.bind_some, Option.all_some]
    obtain ⟨hc₁, he₁, hanswer⟩ := hchild
    refine ⟨hc₁, he₁, ?_⟩
    generalize Hierarchy.child ctx h p name.text = r at hc₁ he₁ hanswer
    obtain ⟨c, h₁⟩ := r
    generalize hout : childViews? ctx (v.view :: more) name.text = out at hanswer
    cases hanswer with
    | none => exact .none
    | @some c lc hdc =>
      have hiff : c = id ↔ n.view.name = name.text := by
        constructor
        · rintro rfl
          rw [hdc.unique (hd.mono he₁)] at hout
          exact Option.some.inj (name_of_childViews? hout)
        · intro hname
          rw [show n.name = name.text from hname, hout] at hself
          cases hself
          exact hc₁.eq_of_denotes hdc (hd.mono he₁)
      by_cases hname : n.view.name = name.text
      · simp only [Option.filter_some, hiff.2 hname, hname, ne_eq, not_true_eq_false, decide_false]
        exact .none
      · have hne : c ≠ id := fun heq => hname (hiff.1 heq)
        simp only [Option.filter_some, hne, hname, ne_eq, not_false_eq_true, decide_true, if_true]
        exact .some hdc

theorem step (hc : Coherent ctx h) (hd : h.Denotes id l) (s : Step) :
    Yields ctx NodeIs h (h.step ctx id s) (stepViews? ctx l s) := by
  cases s with
  | this => exact ⟨hc, .refl h, .some hd⟩
  | parent => exact ⟨hc, .refl h, parentIs hd⟩
  | root =>
    have hroot := hc.rootNode
    exact ⟨hroot.coherent, hroot.grows, .some hroot.answer⟩
  | layer => exact ⟨hc, .refl h, hc.layer? hd⟩
  | ancestor params => exact ⟨hc, .refl h, hc.ancestor? hd params⟩
  | child name => exact hc.child hd name.text
  | sibling name => exact hc.sibling? hd name
  | handle name =>
    simp only [Hierarchy.step, stepViews?]
    cases ctx.names.handle? name.text with
    | some handle => exact hc.ofDesc handle.desc
    | none => exact hc.child hd name.text

theorem selectSteps (hc : Coherent ctx h) (hd : h.Denotes id l) (fragments : List Fragment) :
    Yields ctx NodesAre h (h.selectSteps ctx id fragments) (selectViews ctx l fragments) := by
  induction fragments generalizing h id l with
  | nil => exact ⟨hc, .refl h, .nil⟩
  | cons f rest ih =>
    obtain ⟨hc₁, he₁, hanswer⟩ := hc.step hd f.step
    unfold Hierarchy.selectSteps selectViews
    generalize h.step ctx id f.step = r at hc₁ he₁ hanswer
    obtain ⟨c, h₁⟩ := r
    generalize stepViews? ctx l f.step = out at hanswer
    cases hanswer with
    | none => exact ⟨hc₁, he₁, .nil⟩
    | some hd' =>
      have hmore := ih hc₁ hd'
      exact ⟨hmore.coherent, he₁.trans hmore.grows, .cons (hd'.mono hmore.grows) hmore.answer⟩

end Coherent

end

end Hierarchy
end UILayout
