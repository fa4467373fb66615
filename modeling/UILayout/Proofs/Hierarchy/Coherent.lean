import UILayout.Proofs.Hierarchy.Tally
import UILayout.Proofs.Hierarchy.View

/-!
# UILayout.Proofs.Hierarchy.Coherent

The invariant of the hierarchy: every live node is what would be made in its place now, and what a
node knows about its children is right. The descs that it rests on are all noted as read, and nodes that
have been dropped are counted.

* `Coherent.modify`, `Coherent.build`: the two ways in which a hierarchy grows.
* `Coherent.slot_of_branch`: a branch is right about the descs that its name stands for.
-/

namespace UILayout
namespace Hierarchy

open Namespace Schema Markup

/-- A child of a node has been made. -/
def Node.Built (n : Node) (name : String) (c : NodeId) : Prop :=
  ∃ m, n.children? = some m ∧ m.get? name = some (.built c)

/-- What is known about the child of a name, which `descs` would make, is right. -/
inductive BranchOk (ctx : Context) (h : Hierarchy) (id : NodeId) (read : List DescId) (name : String)
    (descs : List DescId) : Branch → Prop where
  | pending : BranchOk ctx h id read name descs (.pending descs)
  | built {c : NodeId} {cn : Node} (hc : h.live? c = some cn) (hp : cn.parent? = some id)
      (hname : cn.name = name) (hdescs : cn.descs = descs) :
      BranchOk ctx h id read name descs (.built c)
  | missing (hnone : viewOf? ctx name descs = none) (hread : readOf ctx descs ⊆ read) :
      BranchOk ctx h id read name descs .missing

/-- A node is in its place, and is what would be made there. -/
structure Hung (ctx : Context) (h : Hierarchy) (id : NodeId) (n : Node) : Prop where
  root : n.parent? = none → h.root? = some id ∧ n.view = .root
  parent : ∀ {p : NodeId}, n.parent? = some p →
    p < id ∧ ∃ pn, h.live? p = some pn ∧ pn.Built n.name id
  made : ∀ {p : NodeId}, n.parent? = some p →
    viewOf? ctx n.name n.descs = some n.view ∧ readOf ctx n.descs ⊆ n.read
  sources : n.sources ⊆ n.read

/-- The children of a node are listed as they would be listed now. -/
structure Stocked (ctx : Context) (h : Hierarchy) (id : NodeId) (n : Node) : Prop where
  keys : ∀ {m : NameMap Branch}, n.children? = some m → m.keys = (n.view.slots ctx).keys
  branch : ∀ {m : NameMap Branch} {name : String} {descs : List DescId} {b : Branch},
    n.children? = some m → (n.view.slots ctx).get? name = some descs → m.get? name = some b →
    BranchOk ctx h id n.read name descs b

structure Coherent (ctx : Context) (h : Hierarchy) : Prop where
  hung : ∀ {id : NodeId} {n : Node}, h.live? id = some n → Hung ctx h id n
  stocked : ∀ {id : NodeId} {n : Node}, h.live? id = some n → Stocked ctx h id n
  root : ∀ {r : NodeId}, h.root? = some r → ∃ n, h.live? r = some n ∧ n.parent? = none
  tallied : Tallied h

/-- All live nodes of `h` are still there in `h'`, and nothing that has been made is forgotten. -/
structure Extends (h h' : Hierarchy) : Prop where
  root : ∀ {r : NodeId}, h.root? = some r → h'.root? = some r
  node : ∀ {id : NodeId} {n : Node}, h.live? id = some n → ∃ n', h'.live? id = some n' ∧
    n'.view = n.view ∧ n'.parent? = n.parent? ∧ ∀ {name : String} {c : NodeId}, n.Built name c →
      n'.Built name c

theorem Coherent.empty (ctx : Context) : Coherent ctx .empty := by
  have none_live : ∀ {id : NodeId} {n : Node}, Hierarchy.empty.live? id ≠ some n := by
    intro id n
    simp [live?, Hierarchy.empty]
  refine ⟨fun h => absurd h none_live, fun h => absurd h none_live, ?_, .empty⟩
  intro r hr
  cases hr

namespace Extends

variable {h h' h'' : Hierarchy}

theorem refl (h : Hierarchy) : Extends h h :=
  ⟨fun hr => hr, fun hn => ⟨_, hn, rfl, rfl, id⟩⟩

theorem trans (h₁ : Extends h h') (h₂ : Extends h' h'') : Extends h h'' := by
  constructor
  · exact fun hr => h₂.root (h₁.root hr)
  · intro id n hn
    obtain ⟨n', hn', hv', hp', hb'⟩ := h₁.node hn
    obtain ⟨n'', hn'', hv'', hp'', hb''⟩ := h₂.node hn'
    exact ⟨n'', hn'', hv''.trans hv', hp''.trans hp', fun hb => hb'' (hb' hb)⟩

end Extends

section

variable {ctx : Context} {h h' : Hierarchy} {id : NodeId} {n n' : Node}

theorem Hung.mono (hh : Hung ctx h id n) (he : Extends h h') (hview : n'.view = n.view)
    (hparent : n'.parent? = n.parent?) (hread : n.read ⊆ n'.read) : Hung ctx h' id n' := by
  have hname : n'.name = n.name := congrArg View.name hview
  have hdescs : n'.descs = n.descs := congrArg View.descs hview
  have hsources : n'.sources = n.sources := congrArg View.sources hview
  refine ⟨?_, ?_, ?_, ?_⟩
  · intro hp
    obtain ⟨hr, hv⟩ := hh.root (hparent ▸ hp)
    exact ⟨he.root hr, hview.trans hv⟩
  · intro p hp
    obtain ⟨hlt, pn, hpn, hb⟩ := hh.parent (hparent ▸ hp)
    obtain ⟨pn', hpn', -, -, hb'⟩ := he.node hpn
    exact ⟨hlt, pn', hpn', by rw [hname]; exact hb' hb⟩
  · intro p hp
    obtain ⟨hv, hr⟩ := hh.made (hparent ▸ hp)
    rw [hname, hdescs, hview]
    exact ⟨hv, List.Subset.trans hr hread⟩
  · rw [hsources]
    exact List.Subset.trans hh.sources hread

theorem BranchOk.mono {read read' : List DescId} {name : String} {descs : List DescId} {b : Branch}
    (hb : BranchOk ctx h id read name descs b) (he : Extends h h') (hread : read ⊆ read') :
    BranchOk ctx h' id read' name descs b := by
  cases hb with
  | pending => exact .pending
  | built hc hp hname hdescs =>
    obtain ⟨cn', hcn', hv, hp', -⟩ := he.node hc
    exact .built hcn' (hp'.trans hp) ((congrArg View.name hv).trans hname)
      ((congrArg View.descs hv).trans hdescs)
  | missing hnone hr => exact .missing hnone (List.Subset.trans hr hread)

theorem Stocked.mono (hs : Stocked ctx h id n) (he : Extends h h') : Stocked ctx h' id n :=
  ⟨hs.keys, fun hm hslot hb => (hs.branch hm hslot hb).mono he (List.Subset.refl _)⟩

theorem Stocked.of_none (hm : n.children? = none) : Stocked ctx h id n := by
  constructor
  · intro m hm'
    rw [hm] at hm'
    cases hm'
  · intro m name descs b hm'
    rw [hm] at hm'
    cases hm'

/-- What comes in has to be right; all else stays as it was. -/
theorem Coherent.extend (hc : Coherent ctx h) (he : Extends h h') (ht : Tallied h')
    (hnodes : ∀ {j : NodeId} {x : Node}, h'.live? j = some x →
      h.live? j = some x ∨ Hung ctx h' j x ∧ Stocked ctx h' j x)
    (hroot : ∀ {r : NodeId}, h'.root? = some r →
      h.root? = some r ∨ ∃ x, h'.live? r = some x ∧ x.parent? = none) : Coherent ctx h' := by
  refine ⟨?_, ?_, ?_, ht⟩
  · intro j x hx
    rcases hnodes hx with hold | ⟨hhung, -⟩
    · exact (hc.hung hold).mono he rfl rfl (List.Subset.refl _)
    · exact hhung
  · intro j x hx
    rcases hnodes hx with hold | ⟨-, hstocked⟩
    · exact (hc.stocked hold).mono he
    · exact hstocked
  · intro r hr
    rcases hroot hr with hold | hnew
    · obtain ⟨x, hx, hp⟩ := hc.root hold
      obtain ⟨x', hx', -, hp', -⟩ := he.node hx
      exact ⟨x', hx', hp'.trans hp⟩
    · exact hnew

theorem Coherent.slot_of_branch (hc : Coherent ctx h) (hn : h.live? id = some n) {m : NameMap Branch}
    (hm : n.children? = some m) {name : String} {b : Branch} (hb : m.get? name = some b) :
    ∃ descs, (n.view.slots ctx).get? name = some descs ∧ BranchOk ctx h id n.read name descs b := by
  have hmem := (OrderedMap.mem_keys_iff m name).2 ⟨b, hb⟩
  rw [(hc.stocked hn).keys hm] at hmem
  obtain ⟨descs, hslot⟩ := (OrderedMap.mem_keys_iff _ _).1 hmem
  exact ⟨descs, hslot, (hc.stocked hn).branch hm hslot hb⟩

theorem Coherent.slot_of_parent (hc : Coherent ctx h) {p : NodeId} (hn : h.live? id = some n)
    (hp : n.parent? = some p) :
    ∃ pn, h.live? p = some pn ∧ (pn.view.slots ctx).get? n.name = some n.descs := by
  obtain ⟨-, pn, hpn, m, hm, hget⟩ := (hc.hung hn).parent hp
  obtain ⟨descs, hslot, hok⟩ := hc.slot_of_branch hpn hm hget
  cases hok with
  | built hlive _ _ hdescs =>
    rw [hn] at hlive
    cases hlive
    exact ⟨pn, hpn, by rw [hdescs, hslot]⟩

/-! ## Changing one node -/

/-- A node learns more about its children. -/
structure Learns (n n' : Node) : Prop where
  live : n'.live = true
  view : n'.view = n.view
  parent? : n'.parent? = n.parent?
  read : n.read ⊆ n'.read
  built : ∀ {name : String} {c : NodeId}, n.Built name c → n'.Built name c

theorem extends_modify {f : Node → Node} (hn : h.live? id = some n) (hf : Learns n (f n)) :
    Extends h (h.modify id f) ∧ (h.modify id f).live? id = some (f n) := by
  have hself : (h.modify id f).live? id = some (f n) := by
    rw [live?_modify, if_pos rfl, (live?_eq_some_iff.1 hn).1, Option.map_some, Option.filter_some,
      if_pos hf.live]
  refine ⟨⟨fun hr => hr, ?_⟩, hself⟩
  intro j x hx
  by_cases hj : id = j
  · subst hj
    rw [hn] at hx
    cases hx
    exact ⟨_, hself, hf.view, hf.parent?, hf.built⟩
  · exact ⟨x, by rw [live?_modify, if_neg hj, hx], rfl, rfl, fun hb => hb⟩

theorem Coherent.modify (hc : Coherent ctx h) {f : Node → Node} (hn : h.live? id = some n)
    (hf : Learns n (f n)) (hs : Stocked ctx h id (f n)) : Coherent ctx (h.modify id f) := by
  obtain ⟨he, hself⟩ := extends_modify hn hf
  refine hc.extend he (hc.tallied.modify_live hn hf.live) ?_ fun hr => .inl hr
  intro j x hx
  by_cases hj : id = j
  · subst hj
    rw [hself] at hx
    cases hx
    exact .inr ⟨(hc.hung hn).mono he hf.view hf.parent? hf.read, hs.mono he⟩
  · rw [live?_modify, if_neg hj] at hx
    exact .inl hx

/-! ## Listing children -/

/-- A node with its children listed. -/
def Node.expanded (ctx : Context) (n : Node) : Node :=
  match n.children? with
  | some _ => n
  | none => { n with children? := some ((groupChildren ctx.names n.sources).map .pending) }

theorem expand_eq (ctx : Context) (h : Hierarchy) (id : NodeId) :
    h.expand ctx id = h.modify id (Node.expanded ctx) := rfl

theorem learns_expanded (ctx : Context) (hl : n.live = true) : Learns n (n.expanded ctx) := by
  unfold Node.expanded
  split
  · exact ⟨hl, rfl, rfl, List.Subset.refl _, id⟩
  · rename_i hnone
    refine ⟨hl, rfl, rfl, List.Subset.refl _, ?_⟩
    rintro name c ⟨m, hm, -⟩
    rw [hnone] at hm
    cases hm

theorem Stocked.expanded (hs : Stocked ctx h id n) : Stocked ctx h id (n.expanded ctx) := by
  unfold Node.expanded
  split
  · exact hs
  · constructor
    · intro m hm
      cases hm
      exact OrderedMap.keys_map _ _
    · intro m name descs b hm hslot hb
      cases hm
      rw [OrderedMap.get?_map] at hb
      have heq : (groupChildren ctx.names n.sources).get? name = some descs := hslot
      rw [heq] at hb
      cases hb
      exact .pending

theorem Coherent.expand (hc : Coherent ctx h) (hn : h.live? id = some n) :
    Coherent ctx (h.expand ctx id) ∧ Extends h (h.expand ctx id) ∧
      (h.expand ctx id).live? id = some (n.expanded ctx) := by
  have hl := learns_expanded ctx (live?_eq_some_iff.1 hn).2
  rw [expand_eq]
  exact ⟨hc.modify hn hl (hc.stocked hn).expanded, extends_modify hn hl⟩

theorem children?_expanded (ctx : Context) (n : Node) : ∃ m, (n.expanded ctx).children? = some m := by
  unfold Node.expanded
  split
  · exact ⟨_, ‹_›⟩
  · exact ⟨_, rfl⟩

/-! ## Making a child -/

/-- A node with one branch set. -/
def Node.withBranch (n : Node) (name : String) (b : Branch) : Node :=
  { n with children? := n.children?.map (·.put name b) }

theorem setBranch_eq (h : Hierarchy) (id : NodeId) (name : String) (b : Branch) :
    h.setBranch id name b = h.modify id (·.withBranch name b) := rfl

section Branch

variable {m : NameMap Branch} {name : String} {descs : List DescId} {b : Branch}

theorem keys_withBranch (hm : n.children? = some m) (hb : m.get? name = some b) (b' : Branch)
    {m' : NameMap Branch} (hm' : (n.withBranch name b').children? = some m') : m'.keys = m.keys := by
  unfold Node.withBranch at hm'
  rw [hm, Option.map_some] at hm'
  cases hm'
  rw [OrderedMap.keys_put, if_pos ((OrderedMap.mem_keys_iff m name).2 ⟨b, hb⟩)]

theorem learns_withBranch (hl : n.live = true) (hm : n.children? = some m)
    (hb : m.get? name = some (.pending descs)) (b' : Branch) : Learns n (n.withBranch name b') := by
  refine ⟨hl, rfl, rfl, List.Subset.refl _, ?_⟩
  rintro x c ⟨m₀, hm₀, hx⟩
  rw [hm] at hm₀
  cases hm₀
  refine ⟨m.put name b', by rw [Node.withBranch, hm, Option.map_some], ?_⟩
  rw [OrderedMap.get?_put, if_neg, hx]
  rintro rfl
  rw [hb] at hx
  cases hx

/-- What is set must be right, and all else stays as it is. -/
theorem Stocked.withBranch (hs : Stocked ctx h id n) (hm : n.children? = some m)
    (hb : m.get? name = some b) (hslot : (n.view.slots ctx).get? name = some descs) {b' : Branch}
    (hok : BranchOk ctx h id n.read name descs b') : Stocked ctx h id (n.withBranch name b') := by
  constructor
  · intro m' hm'
    rw [keys_withBranch hm hb b' hm']
    exact hs.keys hm
  · intro m' x descs' b'' hm' hx hb''
    rw [Node.withBranch, hm, Option.map_some] at hm'
    cases hm'
    rw [OrderedMap.get?_put] at hb''
    split at hb''
    · rename_i hname
      subst hname
      cases hb''
      have heq : some descs = some descs' := hslot.symm.trans hx
      cases heq
      exact hok
    · exact hs.branch hm hx hb''

/-- A node that has read more. -/
def Node.withRead (n : Node) (read : List DescId) : Node := { n with read := n.read ++ read }

theorem Coherent.miss (hc : Coherent ctx h) (hn : h.live? id = some n) (hm : n.children? = some m)
    (hb : m.get? name = some (.pending descs)) (hslot : (n.view.slots ctx).get? name = some descs)
    (hv : viewOf? ctx name descs = none) :
    Coherent ctx ((h.modify id (·.withRead (readOf ctx descs))).setBranch id name .missing) ∧
      Extends h ((h.modify id (·.withRead (readOf ctx descs))).setBranch id name .missing) := by
  have hl : n.live = true := (live?_eq_some_iff.1 hn).2
  have hread : Learns n (n.withRead (readOf ctx descs)) :=
    ⟨hl, rfl, rfl, List.subset_append_left _ _, fun hb => hb⟩
  have hstocked : Stocked ctx h id (n.withRead (readOf ctx descs)) :=
    ⟨(hc.stocked hn).keys, fun hm hslot hb =>
      ((hc.stocked hn).branch hm hslot hb).mono (.refl h) (List.subset_append_left _ _)⟩
  have hc₁ := hc.modify (f := (·.withRead (readOf ctx descs))) hn hread hstocked
  obtain ⟨he₁, hn₁⟩ := extends_modify (f := (·.withRead (readOf ctx descs))) hn hread
  have hm₁ : (n.withRead (readOf ctx descs)).children? = some m := hm
  have hlearns := learns_withBranch hread.live hm₁ hb .missing
  have hstocked₁ := (hc₁.stocked hn₁).withBranch hm₁ hb hslot
    (.missing hv (List.subset_append_right _ _))
  exact ⟨hc₁.modify (f := (·.withBranch name .missing)) hn₁ hlearns hstocked₁,
    he₁.trans (extends_modify (f := (·.withBranch name .missing)) hn₁ hlearns).1⟩

/-! A new node is not in its place before its parent knows it, so that both are put in as one. -/

/-- A hierarchy with one more child of a node. -/
def withChild (h : Hierarchy) (id : NodeId) (name : String) (n : Node) : Hierarchy :=
  (h.add n).2.setBranch id name (.built h.nodes.size)

theorem live?_withChild (h : Hierarchy) (id j : NodeId) (name : String) (x : Node)
    (hid : id < h.nodes.size) :
    (h.withChild id name x).live? j =
      if j = h.nodes.size then some x |>.filter (·.live)
      else if id = j then (h.nodes[j]?.map (·.withBranch name (.built h.nodes.size))).filter (·.live)
      else h.live? j := by
  have hne : id ≠ h.nodes.size := Nat.ne_of_lt hid
  rw [withChild, setBranch_eq, live?_modify]
  by_cases hj : j = h.nodes.size
  · subst hj
    simp [hne, live?, add]
  · rw [if_neg hj]
    simp only [live?, add, Array.getElem?_push, if_neg hj]

theorem Coherent.build (hc : Coherent ctx h) (hn : h.live? id = some n) (hm : n.children? = some m)
    (hb : m.get? name = some (.pending descs)) (hslot : (n.view.slots ctx).get? name = some descs)
    {v : View} (hv : viewOf? ctx name descs = some v) :
    Coherent ctx (h.withChild id name (v.node id (readOf ctx descs))) ∧
      Extends h (h.withChild id name (v.node id (readOf ctx descs))) ∧
      (h.withChild id name (v.node id (readOf ctx descs))).live? h.nodes.size =
        some (v.node id (readOf ctx descs)) := by
  generalize hh' : h.withChild id name (v.node id (readOf ctx descs)) = h'
  have hid : id < h.nodes.size := lt_size_of_live? hn
  have hl : n.live = true := (live?_eq_some_iff.1 hn).2
  obtain ⟨hname, hdescs, -⟩ := name_of_viewOf? hv
  have hlearns := learns_withBranch hl hm hb (.built h.nodes.size)
  have hlive := fun j => live?_withChild h id j name (v.node id (readOf ctx descs)) hid
  rw [hh'] at hlive
  have hnew : h'.live? h.nodes.size = some (v.node id (readOf ctx descs)) := by
    rw [hlive, if_pos rfl]
    rfl
  have hself : h'.live? id = some (n.withBranch name (.built h.nodes.size)) := by
    rw [hlive, if_neg (Nat.ne_of_lt hid), if_pos rfl, (live?_eq_some_iff.1 hn).1, Option.map_some,
      Option.filter_some, if_pos hlearns.live]
  have hother : ∀ {j : NodeId}, j ≠ h.nodes.size → j ≠ id → h'.live? j = h.live? j := by
    intro j hj hji
    rw [hlive, if_neg hj, if_neg (Ne.symm hji)]
  have hroot : h'.root? = h.root? := by rw [← hh']; rfl
  have he : Extends h h' := by
    refine ⟨fun hr => hroot.trans hr, ?_⟩
    intro j x hx
    by_cases hji : j = id
    · subst hji
      rw [hn] at hx
      cases hx
      exact ⟨_, hself, hlearns.view, hlearns.parent?, hlearns.built⟩
    · exact ⟨x, by rw [hother (Nat.ne_of_lt (lt_size_of_live? hx)) hji, hx], rfl, rfl, fun hb => hb⟩
  have hbuilt : (n.withBranch name (.built h.nodes.size)).Built name h.nodes.size := by
    refine ⟨m.put name (.built h.nodes.size), by rw [Node.withBranch, hm, Option.map_some], ?_⟩
    rw [OrderedMap.get?_put, if_pos rfl]
  have hbranch : BranchOk ctx h' id n.read name descs (.built h.nodes.size) :=
    .built hnew rfl hname hdescs
  have hhung : Hung ctx h' h.nodes.size (v.node id (readOf ctx descs)) := by
    have hn' : (v.node id (readOf ctx descs)).name = name := hname
    have hd' : (v.node id (readOf ctx descs)).descs = descs := hdescs
    refine ⟨?_, ?_, ?_, sources_subset_read hv⟩
    · intro hp
      cases hp
    · rintro p hp
      cases hp
      exact ⟨hid, _, hself, by rw [hn']; exact hbuilt⟩
    · intro p _
      rw [hn', hd']
      exact ⟨hv, List.Subset.refl _⟩
  have htallied : Tallied h' := hh' ▸ (hc.tallied.add rfl).setBranch id name _
  refine ⟨hc.extend he htallied ?_ fun hr => .inl (hroot.symm.trans hr), he, hnew⟩
  intro j x hx
  by_cases hj : j = h.nodes.size
  · subst hj
    rw [hnew] at hx
    cases hx
    exact .inr ⟨hhung, .of_none rfl⟩
  by_cases hji : j = id
  · subst hji
    rw [hself] at hx
    cases hx
    exact .inr ⟨(hc.hung hn).mono he hlearns.view hlearns.parent? hlearns.read,
      ((hc.stocked hn).mono he).withBranch hm hb hslot hbranch⟩
  · rw [hother hj hji] at hx
    exact .inl hx

end Branch

/-! ## Making the root -/

/-- A hierarchy with a new root. -/
def withRoot (h : Hierarchy) : Hierarchy := { (h.add .root).2 with root? := some (h.add .root).1 }

theorem live?_withRoot (h : Hierarchy) (j : NodeId) :
    h.withRoot.live? j = if j = h.nodes.size then some .root else h.live? j := by
  simp only [withRoot, live?, add, Array.getElem?_push]
  split
  · rfl
  · rfl

theorem Coherent.withRoot (hc : Coherent ctx h) (hr : h.root? = none) :
    Coherent ctx h.withRoot ∧ Extends h h.withRoot ∧
      h.withRoot.live? h.nodes.size = some .root := by
  have hnew : h.withRoot.live? h.nodes.size = some .root := by rw [live?_withRoot, if_pos rfl]
  have hother : ∀ {j : NodeId}, j ≠ h.nodes.size → h.withRoot.live? j = h.live? j := by
    intro j hj
    rw [live?_withRoot, if_neg hj]
  have he : Extends h h.withRoot := by
    refine ⟨fun hr' => ?_, ?_⟩
    · rw [hr] at hr'
      cases hr'
    · intro j x hx
      have hj : j ≠ h.nodes.size := Nat.ne_of_lt (lt_size_of_live? hx)
      exact ⟨x, by rw [hother hj, hx], rfl, rfl, fun hb => hb⟩
  refine ⟨hc.extend he ((hc.tallied.add rfl).withRoot? _) ?_ ?_, he, hnew⟩
  · intro j x hx
    by_cases hj : j = h.nodes.size
    · subst hj
      rw [hnew] at hx
      cases hx
      refine .inr ⟨⟨fun _ => ⟨rfl, rfl⟩, ?_, ?_, List.Subset.refl _⟩, .of_none rfl⟩
      · intro p hp
        cases hp
      · intro p hp
        cases hp
    · rw [hother hj] at hx
      exact .inl hx
  · intro r hr'
    cases hr'
    exact .inr ⟨_, hnew, rfl⟩

end

end Hierarchy
end UILayout
