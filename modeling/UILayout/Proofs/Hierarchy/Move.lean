import UILayout.Proofs.Hierarchy.Walk

/-!
# UILayout.Proofs.Hierarchy.Move

Walks that are made from outside: each move starts from a desc, or from a node that an earlier move
was answered with. What such a walk finds does not depend on the nodes that were there before, except
for their numbers.

* `Coherent.walk`: a walk finds what the views say.
* `renamed_of_walkIs`: two walks that find the same views differ in the numbers of nodes at most.
-/

namespace UILayout
namespace Hierarchy

open Namespace Schema Markup Selector

/-- Where to go from a node. -/
inductive Way where
  | child (name : String)
  | children
  | parent
  | step (s : Step)

inductive Move where
  /-- Starts from a desc. -/
  | desc (id : DescId)
  /-- Goes on from a node that has been answered, given by its position among these. -/
  | go (position : Nat) (way : Way)

def Way.take (ctx : Context) (h : Hierarchy) (id : NodeId) : Way → List NodeId × Hierarchy
  | .child name => ((h.child ctx id name).1.toList, (h.child ctx id name).2)
  | .children => h.children ctx id
  | .parent => ((h.parent? id).toList, h)
  | .step s => ((h.step ctx id s).1.toList, (h.step ctx id s).2)

def Move.make (ctx : Context) (h : Hierarchy) (found : List NodeId) :
    Move → List NodeId × Hierarchy
  | .desc id => ((h.ofDesc ctx id).1.toList, (h.ofDesc ctx id).2)
  | .go position way =>
    match found[position]? with
    | some id => way.take ctx h id
    | none => ([], h)

/-- The nodes that each move is answered with; `found` are those of the moves before. -/
def walk (ctx : Context) (h : Hierarchy) (found : List NodeId) :
    List Move → List (List NodeId) × Hierarchy
  | [] => ([], h)
  | move :: rest =>
    let made := move.make ctx h found
    let more := walk ctx made.2 (found ++ made.1) rest
    (made.1 :: more.1, more.2)

/-! ## Walks over views -/

def Way.views (ctx : Context) (l : List View) : Way → List (List View)
  | .child name => (childViews? ctx l name).toList
  | .children => childrenViews ctx l
  | .parent => (around l).head?.toList
  | .step s => (stepViews? ctx l s).toList

def Move.views (ctx : Context) (found : List (List View)) : Move → List (List View)
  | .desc id => (viewsOfDesc? ctx id).toList
  | .go position way =>
    match found[position]? with
    | some l => way.views ctx l
    | none => []

def walkViews (ctx : Context) (found : List (List View)) : List Move → List (List (List View))
  | [] => []
  | move :: rest => move.views ctx found :: walkViews ctx (found ++ move.views ctx found) rest

/-- The answers are some nodes for each move. -/
abbrev WalkIs (h : Hierarchy) : List (List NodeId) → List (List (List View)) → Prop :=
  List.Forall₂ (NodesAre h)

section

variable {ctx : Context} {h h' : Hierarchy} {id : NodeId} {l : List View}

theorem NodeIs.toList {id? : Option NodeId} {l? : Option (List View)} (hd : NodeIs h id? l?) :
    NodesAre h id?.toList l?.toList := by
  cases hd with
  | none => exact .nil
  | some hd => exact .cons hd .nil

theorem Yields.toList {r : Option NodeId × Hierarchy} {out : Option (List View)}
    (hy : Yields ctx NodeIs h r out) : Yields ctx NodesAre h (r.1.toList, r.2) out.toList :=
  ⟨hy.coherent, hy.grows, hy.answer.toList⟩

theorem Coherent.take (hc : Coherent ctx h) (hd : h.Denotes id l) (way : Way) :
    Yields ctx NodesAre h (way.take ctx h id) (way.views ctx l) := by
  cases way with
  | child name => exact (hc.child hd name).toList
  | children => exact hc.children hd
  | parent => exact ⟨hc, .refl h, (parentIs hd).toList⟩
  | step s => exact (hc.step hd s).toList

theorem Coherent.make (hc : Coherent ctx h) {found : List NodeId} {ls : List (List View)}
    (hf : NodesAre h found ls) (move : Move) :
    Yields ctx NodesAre h (move.make ctx h found) (move.views ctx ls) := by
  cases move with
  | desc id => exact (hc.ofDesc id).toList
  | go position way =>
    simp only [Move.make, Move.views]
    have hlength := hf.length_eq
    by_cases hlt : position < found.length
    · have hlt' : position < ls.length := hlength ▸ hlt
      rw [List.getElem?_eq_getElem hlt, List.getElem?_eq_getElem hlt']
      exact hc.take (hf.get hlt hlt') way
    · rw [List.getElem?_eq_none (Nat.not_lt.1 hlt), List.getElem?_eq_none (by omega)]
      exact ⟨hc, .refl h, .nil⟩

theorem Coherent.walk (hc : Coherent ctx h) {found : List NodeId} {ls : List (List View)}
    (hf : NodesAre h found ls) (moves : List Move) :
    Yields ctx WalkIs h (walk ctx h found moves) (walkViews ctx ls moves) := by
  induction moves generalizing h found ls with
  | nil => exact ⟨hc, .refl h, .nil⟩
  | cons move rest ih =>
    obtain ⟨hc₁, he₁, hanswer⟩ := hc.make hf move
    have hfound := List.rel_append (hf.mono he₁) hanswer
    have hmore := ih hc₁ hfound
    exact ⟨hmore.coherent, he₁.trans hmore.grows, .cons (hanswer.mono hmore.grows) hmore.answer⟩

end

/-! ## Other numbers for the same nodes -/

/-- The second answer is the first one with the nodes renamed, and each node is what it was under its
old name. -/
def Renamed (h h' : Hierarchy) (ids ids' : List (List NodeId)) : Prop :=
  ∃ rename : NodeId → NodeId,
    ids' = ids.map (·.map rename) ∧
    (∀ a ∈ ids.flatten, ∀ b ∈ ids.flatten, rename a = rename b → a = b) ∧
    ∀ a ∈ ids.flatten, ∃ n n', h.live? a = some n ∧ h'.live? (rename a) = some n' ∧ n'.view = n.view

/-- Two nodes denote the same. -/
def Match (h h' : Hierarchy) (a b : NodeId) : Prop := ∃ l, h.Denotes a l ∧ h'.Denotes b l

section

variable {ctx : Context} {h h' : Hierarchy} {a b c : NodeId}

theorem Match.right_unique (hc : Coherent ctx h') (hb : Match h h' a b) (hb' : Match h h' a c) :
    b = c := by
  obtain ⟨l, ha, hb⟩ := hb
  obtain ⟨l', ha', hb'⟩ := hb'
  rw [ha.unique ha'] at hb
  exact hc.eq_of_denotes hb hb'

theorem Match.left_unique (hc : Coherent ctx h) (ha : Match h h' a c) (hb : Match h h' b c) :
    a = b := by
  obtain ⟨l, ha, hl⟩ := ha
  obtain ⟨l', hb, hl'⟩ := hb
  rw [hl.unique hl'] at ha
  exact hc.eq_of_denotes ha hb

theorem Match.view_eq (hm : Match h h' a b) :
    ∃ n n', h.live? a = some n ∧ h'.live? b = some n' ∧ n'.view = n.view := by
  obtain ⟨l, ha, hb⟩ := hm
  obtain ⟨n, rest, hn, rfl, -⟩ := ha.exists_node
  obtain ⟨n', rest', hn', heq, -⟩ := hb.exists_node
  exact ⟨n, n', hn, hn', (List.cons.inj heq).1.symm⟩

theorem match_of_nodesAre {ids ids' : List NodeId} {ls : List (List View)}
    (hd : NodesAre h ids ls) (hd' : NodesAre h' ids' ls) : List.Forall₂ (Match h h') ids ids' := by
  induction hd generalizing ids' with
  | nil =>
    cases hd'
    exact .nil
  | cons hd _ ih =>
    cases hd' with
    | cons hd' hrest => exact .cons ⟨_, hd, hd'⟩ (ih hrest)

theorem match_of_walkIs {ids ids' : List (List NodeId)} {out : List (List (List View))}
    (hd : WalkIs h ids out) (hd' : WalkIs h' ids' out) :
    List.Forall₂ (List.Forall₂ (Match h h')) ids ids' := by
  induction hd generalizing ids' with
  | nil =>
    cases hd'
    exact .nil
  | cons hd _ ih =>
    cases hd' with
    | cons hd' hrest => exact .cons (match_of_nodesAre hd hd') (ih hrest)

/-- Numbers that are matched one by one are the values of a function. -/
theorem eq_map_of_match {α β : Type} {R : α → β → Prop} {f : α → β} (hf : ∀ a b, R a b → f a = b)
    {as : List α} {bs : List β} (hd : List.Forall₂ R as bs) :
    bs = as.map f ∧ ∀ a ∈ as, R a (f a) := by
  induction hd with
  | nil => exact ⟨rfl, nofun⟩
  | cons hd _ ih =>
    obtain ⟨heq, hall⟩ := ih
    refine ⟨by rw [List.map_cons, hf _ _ hd, heq], ?_⟩
    intro a ha
    rcases List.mem_cons.1 ha with rfl | ha
    · rw [hf _ _ hd]
      exact hd
    · exact hall a ha

open Classical in
theorem renamed_of_walkIs (hc : Coherent ctx h) (hc' : Coherent ctx h')
    {ids ids' : List (List NodeId)} {out : List (List (List View))} (hd : WalkIs h ids out)
    (hd' : WalkIs h' ids' out) : Renamed h h' ids ids' := by
  let rename : NodeId → NodeId := fun a => if hm : ∃ b, Match h h' a b then hm.choose else a
  have hrename : ∀ a b, Match h h' a b → rename a = b := by
    intro a b hm
    have hex : ∃ b, Match h h' a b := ⟨b, hm⟩
    simp only [rename, dif_pos hex]
    exact hex.choose_spec.right_unique hc' hm
  have hlists : ∀ as bs, List.Forall₂ (Match h h') as bs → as.map rename = bs :=
    fun _ _ hm => (eq_map_of_match hrename hm).1.symm
  have hmatch := match_of_walkIs hd hd'
  obtain ⟨heq, hall⟩ := eq_map_of_match hlists hmatch
  have matched : ∀ a ∈ ids.flatten, Match h h' a (rename a) := by
    intro a ha
    obtain ⟨as, has, ha⟩ := List.mem_flatten.1 ha
    exact (eq_map_of_match hrename (hall as has)).2 a ha
  refine ⟨rename, heq, ?_, fun a ha => (matched a ha).view_eq⟩
  intro a ha b hb hab
  have hma := matched a ha
  rw [hab] at hma
  exact hma.left_unique hc (matched b hb)

end

end Hierarchy
end UILayout
