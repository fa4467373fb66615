import UILayout.Proofs.Hierarchy.Coherent

/-!
# UILayout.Proofs.Hierarchy.Denote

What the number of a node stands for: the views from the node up to the root. In a coherent hierarchy
these determine the node, and questions about nodes are answered from them alone.

* `Coherent.eq_of_denotes`: no two live nodes denote the same.
* `Coherent.child`: the child of a name is what the views say, made or not.
-/

namespace UILayout
namespace Hierarchy

open Namespace Schema Markup

/-- A node and the nodes around it have these views, the nearest first. -/
inductive Denotes (h : Hierarchy) : NodeId → List View → Prop where
  | top {id : NodeId} {n : Node} (hn : h.live? id = some n) (hp : n.parent? = none) :
      Denotes h id [n.view]
  | under {id p : NodeId} {n : Node} {l : List View} (hn : h.live? id = some n)
      (hp : n.parent? = some p) (rest : Denotes h p l) : Denotes h id (n.view :: l)

/-- The child of a name, from the views of the node above it. -/
def childViews? (ctx : Context) (l : List View) (name : String) : Option (List View) :=
  l.head?.bind fun v => (v.child? ctx name).map (· :: l)

/-- A question asked of `h` is answered by `out`, and leaves a coherent hierarchy that has all that
there was. -/
structure Yields {α β : Type} (ctx : Context) (R : Hierarchy → α → β → Prop) (h : Hierarchy)
    (r : α × Hierarchy) (out : β) : Prop where
  coherent : Coherent ctx r.2
  grows : Extends h r.2
  answer : R r.2 r.1 out

/-- The answer is a node, or none. -/
abbrev NodeIs (h : Hierarchy) : Option NodeId → Option (List View) → Prop := Option.Rel h.Denotes

/-- The answer is some nodes, in this order. -/
abbrev NodesAre (h : Hierarchy) : List NodeId → List (List View) → Prop := List.Forall₂ h.Denotes

section

variable {ctx : Context} {h h' : Hierarchy} {id : NodeId} {l : List View}

namespace Denotes

theorem exists_node (hd : h.Denotes id l) : ∃ n rest, h.live? id = some n ∧ l = n.view :: rest ∧
    (n.parent? = none ∧ rest = [] ∨ ∃ p, n.parent? = some p ∧ h.Denotes p rest) := by
  cases hd with
  | top hn hp => exact ⟨_, _, hn, rfl, .inl ⟨hp, rfl⟩⟩
  | under hn hp rest => exact ⟨_, _, hn, rfl, .inr ⟨_, hp, rest⟩⟩

theorem mono (hd : h.Denotes id l) (he : Extends h h') : h'.Denotes id l := by
  induction hd with
  | top hn hp =>
    obtain ⟨n', hn', hv, hp', -⟩ := he.node hn
    rw [← hv]
    exact .top hn' (hp'.trans hp)
  | under hn hp _ ih =>
    obtain ⟨n', hn', hv, hp', -⟩ := he.node hn
    rw [← hv]
    exact .under hn' (hp'.trans hp) ih

theorem unique (hd : h.Denotes id l) {l' : List View} (hd' : h.Denotes id l') : l = l' := by
  induction hd generalizing l' with
  | top hn hp =>
    cases hd' with
    | top hn' _ =>
      rw [hn] at hn'
      cases hn'
      rfl
    | under hn' hp' _ =>
      rw [hn] at hn'
      cases hn'
      rw [hp] at hp'
      cases hp'
  | under hn hp _ ih =>
    cases hd' with
    | top hn' hp' =>
      rw [hn] at hn'
      cases hn'
      rw [hp] at hp'
      cases hp'
    | under hn' hp' rest =>
      rw [hn] at hn'
      cases hn'
      rw [hp] at hp'
      cases hp'
      rw [ih rest]

end Denotes

namespace Coherent

/-- The views around a node determine it: a root is the one root, and a child is the one that its
parent knows under its name. -/
theorem eq_of_denotes (hc : Coherent ctx h) {other : NodeId} (hd : h.Denotes id l)
    (hd' : h.Denotes other l) : id = other := by
  induction hd generalizing other with
  | top hn hp =>
    obtain ⟨x, rest, hx, heq, ⟨hq, -⟩ | ⟨q, -, hrest⟩⟩ := hd'.exists_node
    · have h₁ := ((hc.hung hn).root hp).1
      have h₂ := ((hc.hung hx).root hq).1
      exact Option.some.inj (h₁.symm.trans h₂)
    · obtain ⟨_, _, -, rfl, -⟩ := hrest.exists_node
      cases (List.cons.inj heq).2
  | @under id p n l hn hp rest ih =>
    obtain ⟨x, rest', hx, heq, ⟨-, rfl⟩ | ⟨q, hq, hrest⟩⟩ := hd'.exists_node
    · obtain ⟨_, _, -, rfl, -⟩ := rest.exists_node
      cases (List.cons.inj heq).2
    · obtain ⟨hv, rfl⟩ := List.cons.inj heq
      have hpq := ih hrest
      subst hpq
      obtain ⟨-, pn, hpn, m, hm, hget⟩ := (hc.hung hn).parent hp
      obtain ⟨-, pn', hpn', m', hm', hget'⟩ := (hc.hung hx).parent hq
      rw [hpn] at hpn'
      cases hpn'
      rw [hm] at hm'
      cases hm'
      rw [show n.name = x.name from congrArg View.name hv, hget'] at hget
      exact (Branch.built.inj (Option.some.inj hget)).symm

theorem child (hc : Coherent ctx h) (hd : h.Denotes id l) (name : String) :
    Yields ctx NodeIs h (h.child ctx id name) (childViews? ctx l name) := by
  obtain ⟨n₀, rest, hn₀, rfl, -⟩ := hd.exists_node
  obtain ⟨hc₁, he₁, hn⟩ := hc.expand hn₀
  have hd₁ := hd.mono he₁
  obtain ⟨m, hm⟩ := children?_expanded ctx n₀
  have hview : (n₀.expanded ctx).view = n₀.view := (learns_expanded ctx (live?_eq_some_iff.1 hn₀).2).view
  generalize n₀.expanded ctx = n at hn hm hview
  unfold Hierarchy.child
  generalize h.expand ctx id = h₁ at hc₁ he₁ hn hd₁
  have hbranch : h₁.branch? id name = m.get? name := by
    rw [branch?, node?_of_live? hn, Option.bind_some, hm, Option.bind_some]
  have hkeys := (hc₁.stocked hn).keys hm
  simp only [hbranch, childViews?, List.head?_cons, Option.bind_some, ← hview, View.child?]
  rw [← hview] at hd₁
  cases hb : m.get? name with
  | none =>
    have hslot : (n.view.slots ctx).get? name = none := by
      by_contra hne
      obtain ⟨descs, hdescs⟩ := Option.ne_none_iff_exists'.1 hne
      have hmem := (OrderedMap.mem_keys_iff _ _).2 ⟨descs, hdescs⟩
      rw [← hkeys] at hmem
      obtain ⟨b, hb'⟩ := (OrderedMap.mem_keys_iff _ _).1 hmem
      rw [hb] at hb'
      cases hb'
    rw [hslot]
    exact ⟨hc₁, he₁, .none⟩
  | some b =>
    obtain ⟨descs, hslot, hok⟩ := hc₁.slot_of_branch hn hm hb
    rw [hslot, Option.bind_some]
    cases hok with
    | pending =>
      simp only [makeNode_eq]
      cases hv : viewOf? ctx name descs with
      | none =>
        obtain ⟨hc₂, he₂⟩ := hc₁.miss hn hm hb hslot hv
        exact ⟨hc₂, he₁.trans he₂, .none⟩
      | some v =>
        obtain ⟨hc₂, he₂, hnew⟩ := hc₁.build hn hm hb hslot hv
        exact ⟨hc₂, he₁.trans he₂, .some (.under hnew rfl (hd₁.mono he₂))⟩
    | built hlive hp hname hdescs =>
      have hv := ((hc₁.hung hlive).made hp).1
      rw [hname, hdescs] at hv
      rw [hv]
      exact ⟨hc₁, he₁, .some (.under hlive hp hd₁)⟩
    | missing hnone _ =>
      rw [hnone]
      exact ⟨hc₁, he₁, .none⟩

end Coherent

end

end Hierarchy
end UILayout
