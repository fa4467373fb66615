import UILayout.Proofs.Hierarchy.Denote

/-!
# UILayout.Proofs.Hierarchy.Invalidate

Dropping nodes. A node is dropped with all below it, and its parent is told to make it anew, so that
what is left is coherent. Nothing is left that was made from a desc that has changed.

* `Coherent.mem_below_iff`: the nodes below a node are those whose parent it is.
* `Coherent.detach`: dropping one node.
* `Coherent.invalidate`: what is left after a change was made from descs that it does not touch.
-/

namespace UILayout
namespace Hierarchy

open Namespace

section

variable {ctx : Context} {h h' h'' : Hierarchy} {id j c : NodeId} {n x : Node}

/-! ## The nodes below a node -/

theorem mem_subtree_iff : j ∈ h.subtree id ↔ j = id ∨ ∃ c ∈ h.below id, j ∈ h.subtree c := by
  rw [subtree]
  simp only [List.mem_cons, List.mem_flatMap, List.mem_attach, true_and, Subtype.exists, exists_prop]

theorem self_mem_subtree (h : Hierarchy) (id : NodeId) : id ∈ h.subtree id :=
  mem_subtree_iff.2 (.inl rfl)

theorem below_mem_subtree (hj : j ∈ h.subtree id) (hc : c ∈ h.below j) : c ∈ h.subtree id := by
  induction id using subtree.induct h with
  | case1 id ih =>
    rcases mem_subtree_iff.1 hj with rfl | ⟨b, hb, hj⟩
    · exact mem_subtree_iff.2 (.inr ⟨c, hc, self_mem_subtree h c⟩)
    · exact mem_subtree_iff.2 (.inr ⟨b, hb, ih b hb hj⟩)

/-- A node of a subtree is its top or lies below a node of it. -/
theorem exists_mem_below (hj : j ∈ h.subtree id) :
    j = id ∨ ∃ p ∈ h.subtree id, j ∈ h.below p := by
  induction id using subtree.induct h with
  | case1 id ih =>
    rcases mem_subtree_iff.1 hj with rfl | ⟨b, hb, hj⟩
    · exact .inl rfl
    · rcases ih b hb hj with rfl | ⟨p, hp, hjp⟩
      · exact .inr ⟨id, self_mem_subtree h id, hb⟩
      · exact .inr ⟨p, mem_subtree_iff.2 (.inr ⟨b, hb, hp⟩), hjp⟩

theorem mem_builtChildren {m : NameMap Branch} (hm : n.children? = some m) (hkeys : m.keys.Nodup) :
    c ∈ n.builtChildren ↔ ∃ name, n.Built name c := by
  unfold Node.builtChildren Node.Built
  simp only [hm, List.mem_filterMap]
  constructor
  · rintro ⟨b, hb, hc⟩
    obtain ⟨name, hget⟩ := (OrderedMap.mem_values_iff hkeys b).1 hb
    cases b with
    | built node =>
      cases hc
      exact ⟨name, m, rfl, hget⟩
    | pending _ => cases hc
    | missing => cases hc
  · rintro ⟨name, m', hm', hget⟩
    cases hm'
    exact ⟨.built c, (OrderedMap.mem_values_iff hkeys _).2 ⟨name, hget⟩, rfl⟩

theorem Coherent.nodup_keys (hc : Coherent ctx h) (hn : h.live? id = some n) {m : NameMap Branch}
    (hm : n.children? = some m) : m.keys.Nodup := by
  rw [(hc.stocked hn).keys hm]
  exact nodup_keys_groupChildren _ _

theorem Coherent.of_built (hc : Coherent ctx h) (hn : h.live? id = some n) {name : String}
    (hb : n.Built name c) : ∃ cn, h.live? c = some cn ∧ cn.parent? = some id ∧ cn.name = name := by
  obtain ⟨m, hm, hget⟩ := hb
  obtain ⟨descs, -, hok⟩ := hc.slot_of_branch hn hm hget
  cases hok with
  | built hlive hp hname _ => exact ⟨_, hlive, hp, hname⟩

theorem Coherent.mem_builtChildren_iff (hc : Coherent ctx h) (hn : h.live? id = some n) :
    c ∈ n.builtChildren ↔ ∃ cn, h.live? c = some cn ∧ cn.parent? = some id := by
  constructor
  · intro hmem
    cases hm : n.children? with
    | none => simp [Node.builtChildren, hm] at hmem
    | some m =>
      obtain ⟨name, hb⟩ := (mem_builtChildren hm (hc.nodup_keys hn hm)).1 hmem
      obtain ⟨cn, hcn, hp, -⟩ := hc.of_built hn hb
      exact ⟨cn, hcn, hp⟩
  · rintro ⟨cn, hcn, hp⟩
    obtain ⟨-, pn, hpn, hb⟩ := (hc.hung hcn).parent hp
    rw [hn] at hpn
    cases hpn
    have hchildren := hb
    obtain ⟨m, hm, -⟩ := hchildren
    exact (mem_builtChildren hm (hc.nodup_keys hn hm)).2 ⟨_, hb⟩

theorem Coherent.mem_below_iff (hc : Coherent ctx h) (hn : h.live? id = some n) :
    c ∈ h.below id ↔ ∃ cn, h.live? c = some cn ∧ cn.parent? = some id := by
  unfold below
  rw [node?_of_live? hn, Option.map_some, Option.getD_some]
  simp only [List.mem_filter, Bool.and_eq_true, decide_eq_true_eq, Option.isSome_iff_exists]
  constructor
  · rintro ⟨hmem, -⟩
    exact (hc.mem_builtChildren_iff hn).1 hmem
  · rintro ⟨cn, hcn, hp⟩
    exact ⟨(hc.mem_builtChildren_iff hn).2 ⟨cn, hcn, hp⟩,
      ⟨((hc.hung hcn).parent hp).1, lt_size_of_live? hcn⟩, cn, hcn⟩

/-- In a coherent hierarchy the nodes of a subtree are live, and all but its top have their parent
there. -/
theorem Coherent.of_mem_subtree (hc : Coherent ctx h) (hn : h.live? id = some n)
    (hj : j ∈ h.subtree id) :
    j = id ∨ ∃ x p, h.live? j = some x ∧ x.parent? = some p ∧ p ∈ h.subtree id := by
  induction j using Nat.strongRecOn with
  | ind j ih =>
    rcases exists_mem_below hj with rfl | ⟨p, hp, hbelow⟩
    · exact .inl rfl
    · have hlive : ∃ pn, h.live? p = some pn := by
        rcases ih p (mem_below hbelow).1 hp with rfl | ⟨pn, _, hpn, -⟩
        · exact ⟨n, hn⟩
        · exact ⟨pn, hpn⟩
      obtain ⟨pn, hpn⟩ := hlive
      obtain ⟨x, hx, hxp⟩ := (hc.mem_below_iff hpn).1 hbelow
      exact .inr ⟨x, p, hx, hxp, hp⟩

theorem Coherent.child_mem_subtree (hc : Coherent ctx h) (hx : h.live? j = some x) {p : NodeId}
    (hp : x.parent? = some p) (hmem : p ∈ h.subtree id) : j ∈ h.subtree id := by
  obtain ⟨-, pn, hpn, -⟩ := (hc.hung hx).parent hp
  exact below_mem_subtree hmem ((hc.mem_below_iff hpn).2 ⟨x, hx, hp⟩)

/-! ## Dropping one node -/

theorem live?_foldl_drop (ids : List NodeId) (h : Hierarchy) (j : NodeId) :
    (ids.foldl drop h).live? j = if j ∈ ids then none else h.live? j := by
  induction ids generalizing h with
  | nil => rfl
  | cons id rest ih =>
    rw [List.foldl_cons, ih, live?_drop]
    by_cases hj : j = id <;> by_cases hr : j ∈ rest <;> simp [hj, hr]

theorem root?_foldl_drop (ids : List NodeId) (h : Hierarchy) :
    (ids.foldl drop h).root? = h.root? := by
  induction ids generalizing h with
  | nil => rfl
  | cons id rest ih =>
    rw [List.foldl_cons, ih]
    unfold drop
    split <;> rfl

/-- A node whose child of a name is to be made anew. -/
def Node.reopened (x : Node) (name : String) (descs : List DescId) : Node :=
  { x with
    children? := x.children?.map fun m =>
      if m.contains name then m.put name (.pending descs) else m }

/-- What becomes of the node of a number when `n` is detached. -/
def Node.without (x : Node) (j : NodeId) (n : Node) : Node :=
  if n.parent? = some j then x.reopened n.name n.descs else x

section Without

variable (x : Node) (j : NodeId) (n : Node)

@[simp] theorem Node.view_without : (x.without j n).view = x.view := by
  unfold Node.without
  split <;> rfl

@[simp] theorem Node.parent?_without : (x.without j n).parent? = x.parent? := by
  unfold Node.without
  split <;> rfl

@[simp] theorem Node.read_without : (x.without j n).read = x.read := by
  unfold Node.without
  split <;> rfl

end Without

/-- `h'` is `h` without a node and all below it. -/
structure Detached (h : Hierarchy) (id : NodeId) (n : Node) (h' : Hierarchy) : Prop where
  live? : ∀ j, h'.live? j = if j ∈ h.subtree id then none else (h.live? j).map (·.without j n)
  root? : h'.root? = if n.parent? = none then none else h.root?

theorem live?_reopen (h : Hierarchy) (p j : NodeId) (name : String) (descs : List DescId) :
    (h.reopen p name descs).live? j =
      (h.live? j).map fun x => if p = j then x.reopened name descs else x := by
  show (h.modify p (·.reopened name descs)).live? j = _
  rw [live?_modify]
  split
  · unfold Hierarchy.live?
    rw [Option.filter_map]
    rfl
  · exact Option.map_id'.symm

theorem live?_vacate (h : Hierarchy) (n : Node) (j : NodeId) :
    (h.vacate n).live? j = (h.live? j).map (·.without j n) := by
  unfold vacate
  cases hp : n.parent? with
  | none =>
    simp only [Node.without, hp, reduceCtorEq, if_false, Option.map_id']
    rfl
  | some p => simp only [live?_reopen, Node.without, hp, Option.some.injEq]

theorem root?_vacate (h : Hierarchy) (n : Node) :
    (h.vacate n).root? = if n.parent? = none then none else h.root? := by
  unfold vacate
  cases n.parent? with
  | none => rfl
  | some p => rfl

theorem detached (hn : h.live? id = some n) : Detached h id n (h.detach id) := by
  rw [detach_of_some hn]
  refine ⟨fun j => ?_, ?_⟩
  · rw [live?_foldl_drop, live?_vacate]
  · rw [root?_foldl_drop, root?_vacate]

theorem exists_of_reopened {name : String} {descs : List DescId} {m' : NameMap Branch}
    (hm' : (x.reopened name descs).children? = some m') :
    ∃ m, x.children? = some m ∧ m'.keys = m.keys ∧ ∀ {other : String} {b : Branch},
      m'.get? other = some b → m.get? other = some b ∧ other ≠ name ∨
        other = name ∧ (∃ b₀, m.get? name = some b₀) ∧ b = .pending descs := by
  obtain ⟨m, hm, rfl⟩ := Option.map_eq_some_iff.1 hm'
  refine ⟨m, hm, ?_⟩
  by_cases hmem : m.contains name = true
  · have hkey := (OrderedMap.contains_iff m name).1 hmem
    rw [if_pos hmem]
    refine ⟨by rw [OrderedMap.keys_put, if_pos hkey], ?_⟩
    intro other b hb
    rw [OrderedMap.get?_put] at hb
    split at hb
    · exact .inr ⟨‹_›, (OrderedMap.mem_keys_iff m name).1 hkey, (Option.some.inj hb).symm⟩
    · exact .inl ⟨hb, ‹_›⟩
  · rw [if_neg hmem]
    refine ⟨rfl, fun {other b} hb => .inl ⟨hb, ?_⟩⟩
    rintro rfl
    exact hmem ((OrderedMap.contains_iff m other).2 ((OrderedMap.mem_keys_iff m other).2 ⟨b, hb⟩))

/-- The child of a name is known as before, unless it is the one that is detached. -/
theorem Coherent.built_without (hc : Coherent ctx h) (hn : h.live? id = some n) (hx : h.live? j = some x)
    (hcj : c ∉ h.subtree id) {name : String} (hb : x.Built name c) :
    (x.without j n).Built name c := by
  unfold Node.without
  split
  · rename_i hp
    obtain ⟨m, hm, hget⟩ := hb
    obtain ⟨-, pn, hpn, m', hm', hget'⟩ := (hc.hung hn).parent hp
    rw [hx] at hpn
    cases hpn
    rw [hm] at hm'
    cases hm'
    have hne : name ≠ n.name := by
      rintro rfl
      rw [hget'] at hget
      cases hget
      exact hcj (self_mem_subtree h id)
    refine ⟨_, by rw [Node.reopened, hm, Option.map_some], ?_⟩
    split
    · rw [OrderedMap.get?_put, if_neg hne, hget]
    · exact hget
  · exact hb

namespace Detached

variable (hd : Detached h id n h')
include hd

theorem dead (hj : j ∈ h.subtree id) : h'.live? j = none := by
  rw [hd.live?, if_pos hj]

theorem keeps (hj : j ∉ h.subtree id) (hx : h.live? j = some x) :
    h'.live? j = some (x.without j n) := by
  rw [hd.live?, if_neg hj, hx, Option.map_some]

theorem was (hx : h'.live? j = some x) :
    j ∉ h.subtree id ∧ ∃ x₀, h.live? j = some x₀ ∧ x = x₀.without j n := by
  rw [hd.live?] at hx
  split at hx
  · cases hx
  · obtain ⟨x₀, hx₀, rfl⟩ := Option.map_eq_some_iff.1 hx
    exact ⟨‹_›, x₀, hx₀, rfl⟩

theorem hung (hc : Coherent ctx h) (hn : h.live? id = some n) (hx : h.live? j = some x)
    (hj : j ∉ h.subtree id) : Hung ctx h' j (x.without j n) := by
  have hview := x.view_without j n
  have hname : (x.without j n).name = x.name := congrArg View.name hview
  have hdescs : (x.without j n).descs = x.descs := congrArg View.descs hview
  have hsources : (x.without j n).sources = x.sources := congrArg View.sources hview
  refine ⟨?_, ?_, ?_, ?_⟩
  · intro hp
    rw [Node.parent?_without] at hp
    obtain ⟨hroot, hv⟩ := (hc.hung hx).root hp
    refine ⟨?_, hview.trans hv⟩
    rw [hd.root?, if_neg, hroot]
    intro hpn
    rw [((hc.hung hn).root hpn).1] at hroot
    cases hroot
    exact hj (self_mem_subtree h id)
  · intro p hp
    rw [Node.parent?_without] at hp
    obtain ⟨hlt, pn, hpn, hb⟩ := (hc.hung hx).parent hp
    have hpmem : p ∉ h.subtree id := fun hmem => hj (hc.child_mem_subtree hx hp hmem)
    exact ⟨hlt, _, hd.keeps hpmem hpn, by rw [hname]; exact hc.built_without hn hpn hj hb⟩
  · intro p hp
    rw [Node.parent?_without] at hp
    rw [hname, hdescs, hview, Node.read_without]
    exact (hc.hung hx).made hp
  · rw [hsources, Node.read_without]
    exact (hc.hung hx).sources

theorem branchOk (hc : Coherent ctx h) (hn : h.live? id = some n) (hx : h.live? j = some x)
    (hj : j ∉ h.subtree id) {m : NameMap Branch} (hm : x.children? = some m) {name : String}
    {descs : List DescId} {b : Branch} (hslot : (x.view.slots ctx).get? name = some descs)
    (hb : m.get? name = some b) (hkept : n.parent? = some j → name ≠ n.name) :
    BranchOk ctx h' j x.read name descs b := by
  cases (hc.stocked hx).branch hm hslot hb with
  | pending => exact .pending
  | missing hnone hread => exact .missing hnone hread
  | @built c cn hlive hp hname hdescs =>
    have hmem : c ∉ h.subtree id := by
      intro hmem
      rcases hc.of_mem_subtree hn hmem with rfl | ⟨cn', p, hlive', hp', hpmem⟩
      · rw [hn] at hlive
        cases hlive
        exact hkept hp hname.symm
      · rw [hlive] at hlive'
        cases hlive'
        rw [hp] at hp'
        cases hp'
        exact hj hpmem
    have hview := cn.view_without c n
    exact .built (hd.keeps hmem hlive) ((cn.parent?_without c n).trans hp)
      ((congrArg View.name hview).trans hname) ((congrArg View.descs hview).trans hdescs)

theorem stocked (hc : Coherent ctx h) (hn : h.live? id = some n) (hx : h.live? j = some x)
    (hj : j ∉ h.subtree id) : Stocked ctx h' j (x.without j n) := by
  rw [show x.without j n = if n.parent? = some j then x.reopened n.name n.descs else x from rfl]
  split
  · rename_i hp
    constructor
    · intro m' hm'
      obtain ⟨m, hm, hkeys, -⟩ := exists_of_reopened hm'
      rw [hkeys]
      exact (hc.stocked hx).keys hm
    · intro m' name descs b hm' hslot hb
      obtain ⟨m, hm, -, hcases⟩ := exists_of_reopened hm'
      rcases hcases hb with ⟨hb, hne⟩ | ⟨rfl, -, rfl⟩
      · exact hd.branchOk hc hn hx hj hm hslot hb fun _ => hne
      · -- the slot of the node that is detached holds its descs
        obtain ⟨pn, hpn, hslot'⟩ := hc.slot_of_parent hn hp
        rw [hx] at hpn
        cases hpn
        rw [Option.some.inj (hslot.symm.trans hslot')]
        exact .pending
  · rename_i hp
    exact ⟨(hc.stocked hx).keys, fun hm hslot hb =>
      hd.branchOk hc hn hx hj hm hslot hb fun heq => absurd heq hp⟩

theorem coherent (hc : Coherent ctx h) (hn : h.live? id = some n) (ht : Tallied h') :
    Coherent ctx h' := by
  refine ⟨?_, ?_, ?_, ht⟩
  · intro j x hx
    obtain ⟨hj, x₀, hx₀, rfl⟩ := hd.was hx
    exact hd.hung hc hn hx₀ hj
  · intro j x hx
    obtain ⟨hj, x₀, hx₀, rfl⟩ := hd.was hx
    exact hd.stocked hc hn hx₀ hj
  · intro r hr
    rw [hd.root?] at hr
    split at hr
    · cases hr
    · rename_i hp
      obtain ⟨x, hx, hxp⟩ := hc.root hr
      have hmem : r ∉ h.subtree id := by
        intro hmem
        rcases hc.of_mem_subtree hn hmem with rfl | ⟨x', p, hx', hp', -⟩
        · rw [hn] at hx
          cases hx
          exact hp hxp
        · rw [hx] at hx'
          cases hx'
          rw [hxp] at hp'
          cases hp'
      exact ⟨_, hd.keeps hmem hx, (x.parent?_without r n).trans hxp⟩

end Detached

/-! ## Dropping what was made from something that has changed -/

/-- No node comes in, and none reads more or less than it did. -/
def Shrinks (h h' : Hierarchy) : Prop :=
  ∀ ⦃j : NodeId⦄ ⦃x : Node⦄, h'.live? j = some x → ∃ x₀, h.live? j = some x₀ ∧ x.read = x₀.read

theorem Shrinks.refl (h : Hierarchy) : Shrinks h h := fun _ x hx => ⟨x, hx, rfl⟩

theorem Shrinks.trans (h₁ : Shrinks h h') (h₂ : Shrinks h' h'') : Shrinks h h'' := by
  intro j x hx
  obtain ⟨x₁, hx₁, hread₁⟩ := h₂ hx
  obtain ⟨x₀, hx₀, hread₀⟩ := h₁ hx₁
  exact ⟨x₀, hx₀, hread₁.trans hread₀⟩

theorem Coherent.detach (hc : Coherent ctx h) (id : NodeId) :
    Coherent ctx (h.detach id) ∧ Shrinks h (h.detach id) ∧ (h.detach id).live? id = none := by
  cases hn : h.live? id with
  | none =>
    rw [detach_of_none hn]
    exact ⟨hc, .refl h, hn⟩
  | some n =>
    have hd := detached hn
    refine ⟨hd.coherent hc hn (hc.tallied.detach id), ?_, hd.dead (self_mem_subtree h id)⟩
    intro j x hx
    obtain ⟨-, x₀, hx₀, rfl⟩ := hd.was hx
    exact ⟨x₀, hx₀, x₀.read_without j n⟩

theorem Coherent.detachAll (hc : Coherent ctx h) (ids : List NodeId) :
    Coherent ctx (ids.foldl Hierarchy.detach h) ∧ Shrinks h (ids.foldl Hierarchy.detach h) ∧
      ∀ id ∈ ids, (ids.foldl Hierarchy.detach h).live? id = none := by
  induction ids generalizing h with
  | nil => exact ⟨hc, .refl h, nofun⟩
  | cons id rest ih =>
    obtain ⟨hc₁, hs₁, hdead⟩ := hc.detach id
    obtain ⟨hc₂, hs₂, hall⟩ := ih hc₁
    refine ⟨hc₂, hs₁.trans hs₂, ?_⟩
    intro j hj
    rcases List.mem_cons.1 hj with rfl | hj
    · by_contra hne
      obtain ⟨x, hx⟩ := Option.ne_none_iff_exists'.1 hne
      obtain ⟨x₀, hx₀, -⟩ := hs₂ hx
      rw [hdead] at hx₀
      cases hx₀
    · exact hall j hj

theorem mem_staleNodes (hx : h.live? j = some x) {changes : Changes} {id : DescId}
    (hid : id ∈ x.read) (ht : changes.touches id = true) : j ∈ h.staleNodes changes := by
  obtain ⟨hget, hl⟩ := live?_eq_some_iff.1 hx
  unfold staleNodes
  refine List.mem_map.2 ⟨(x, j), List.mem_filter.2 ⟨?_, ?_⟩, rfl⟩
  · rw [List.mk_mem_zipIdx_iff_getElem?, Array.getElem?_toList]
    exact hget
  · rw [hl, Bool.true_and, List.any_eq_true]
    exact ⟨id, hid, ht⟩

theorem touches_of_isEmpty {changes : Changes} (hempty : changes.isEmpty = true) (id : DescId) :
    changes.touches id = false := by
  simp only [Changes.isEmpty, Bool.and_eq_true, List.isEmpty_iff] at hempty
  obtain ⟨⟨⟨⟨hchildren, hsites⟩, hremoved⟩, -⟩, -⟩ := hempty
  simp [Changes.touches, hchildren, hsites, hremoved]

/-- No live node was made from something that has changed. -/
def Fresh (h : Hierarchy) (changes : Changes) : Prop :=
  ∀ ⦃j : NodeId⦄ ⦃x : Node⦄, h.live? j = some x → ∀ id ∈ x.read, changes.touches id = false

theorem Fresh.empty (changes : Changes) : Fresh .empty changes := by
  intro j x hx
  simp [Hierarchy.live?, Hierarchy.empty] at hx

theorem Coherent.invalidate (hc : Coherent ctx h) (changes : Changes) :
    Coherent ctx (h.invalidate changes) ∧ Fresh (h.invalidate changes) changes := by
  unfold Hierarchy.invalidate
  split
  · rename_i hnone
    refine ⟨hc, ?_⟩
    intro j x hx id _
    rcases Bool.or_eq_true_iff.1 hnone with hempty | hempty
    · exact touches_of_isEmpty hempty id
    · have hlt := lt_size_of_live? hx
      rw [Array.isEmpty_iff.1 hempty] at hlt
      exact absurd hlt (Nat.not_lt_zero _)
  · obtain ⟨hc₁, hs, hdead⟩ := hc.detachAll (h.staleNodes changes)
    dsimp only
    split
    · exact ⟨.empty ctx, .empty changes⟩
    · refine ⟨hc₁, ?_⟩
      intro j x hx id hid
      rw [← Bool.not_eq_true]
      intro ht
      obtain ⟨x₀, hx₀, hread⟩ := hs hx
      rw [hread] at hid
      rw [hdead j (mem_staleNodes hx₀ hid ht)] at hx
      cases hx

end

end Hierarchy
end UILayout
