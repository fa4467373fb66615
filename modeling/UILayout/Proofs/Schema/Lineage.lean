import Mathlib.Data.Fintype.EquivFin
import Mathlib.Data.List.Perm.Subperm
import UILayout.Proofs.Schema.Ancestry

/-!
# UILayout.Proofs.Schema.Lineage

Chains of frame classes. A class has at most one parent, so its chain either comes to a class without one
and has no class twice, or it runs into a cycle. A chain that ends is never longer than there are classes;
so to count that many steps tells the two cases apart.

* `Lineage.nodup`, `Lineage.length_le`: chains that end.
* `Lineage.unique`: there is no other one for the class.
* `exists_lineage`: a class whose ancestors are in no cycle has a chain that ends.
-/

namespace UILayout
namespace Schema

open Relation

/-! ## Chains -/

/-- A frame class names another one as its parent. -/
def Parent (defs : List FrameClassDef) (id parent : FrameClassId) : Prop :=
  ∃ c p, defs[id]? = some c ∧ defs[parent]? = some p ∧ c.parent? = some p.name

/-- A class and its ancestors, the nearest first, up to one that has no parent. -/
inductive Lineage (defs : List FrameClassDef) : FrameClassId → List FrameClassId → Prop where
  | root {id c} (hc : defs[id]? = some c) (hroot : c.parent? = none) : Lineage defs id [id]
  | child {id parent chain} (hparent : Parent defs id parent) (hchain : Lineage defs parent chain) :
      Lineage defs id (id :: chain)

section

variable {defs : List FrameClassDef} {id parent : FrameClassId} {chain : List FrameClassId}

/-- Classes of one name are one class, when names are not given twice. -/
theorem eq_of_name_eq {other : FrameClassId} {c p : FrameClassDef} (hnames : (defs.map (·.name)).Nodup)
    (hc : defs[id]? = some c) (hp : defs[other]? = some p) (hname : c.name = p.name) : id = other :=
  index_eq_of_name_eq hnames hc hp hname

theorem Parent.lt (h : Parent defs id parent) : id < defs.length := by
  obtain ⟨c, p, hc, -⟩ := h
  exact (List.getElem?_eq_some_iff.1 hc).1

theorem Parent.parent_lt (h : Parent defs id parent) : parent < defs.length := by
  obtain ⟨c, p, -, hp, -⟩ := h
  exact (List.getElem?_eq_some_iff.1 hp).1

theorem Parent.ne_none {c : FrameClassDef} (h : Parent defs id parent) (hc : defs[id]? = some c) :
    c.parent? ≠ none := by
  obtain ⟨c', p, hc', -, hname⟩ := h
  rw [hc] at hc'
  cases hc'
  rw [hname]
  exact Option.some_ne_none _

theorem Parent.unique {other : FrameClassId} (hnames : (defs.map (·.name)).Nodup)
    (h : Parent defs id parent) (h' : Parent defs id other) : parent = other := by
  obtain ⟨c, p, hc, hp, hname⟩ := h
  obtain ⟨c', q, hc', hq, hname'⟩ := h'
  rw [hc] at hc'
  cases hc'
  rw [hname] at hname'
  exact eq_of_name_eq hnames hp hq (Option.some.inj hname')

namespace Lineage

theorem lt_of_mem (h : Lineage defs id chain) : ∀ j ∈ chain, j < defs.length := by
  induction h with
  | root hc _ =>
    intro j hj
    rw [List.mem_singleton.1 hj]
    exact (List.getElem?_eq_some_iff.1 hc).1
  | child hparent _ ih =>
    rintro j (_ | ⟨_, hj⟩)
    · exact hparent.lt
    · exact ih j hj

theorem reaches (h : Lineage defs id chain) : ∀ j ∈ chain, ReflTransGen (Parent defs) id j := by
  induction h with
  | root _ _ =>
    intro j hj
    rw [List.mem_singleton.1 hj]
  | child hparent _ ih =>
    rintro j (_ | ⟨_, hj⟩)
    · exact .refl
    · exact .head hparent (ih j hj)

/-- A chain that ends leads up to a class without a parent by the only way that there is. -/
theorem acc (hnames : (defs.map (·.name)).Nodup) (h : Lineage defs id chain) :
    Acc (fun parent id => Parent defs id parent) id := by
  induction h with
  | @root id c hc hroot =>
    exact ⟨_, fun parent hparent => absurd hroot (hparent.ne_none hc)⟩
  | child hparent _ ih =>
    refine ⟨_, fun other hother => ?_⟩
    rw [← hparent.unique hnames hother]
    exact ih

theorem unique {other : List FrameClassId} (hnames : (defs.map (·.name)).Nodup)
    (h : Lineage defs id chain) (h' : Lineage defs id other) : chain = other := by
  induction h generalizing other with
  | root hc hroot =>
    cases h' with
    | root _ _ => rfl
    | child hparent _ =>
      exact absurd hroot (hparent.ne_none hc)
  | child hparent _ ih =>
    cases h' with
    | root hc hroot => exact absurd hroot (hparent.ne_none hc)
    | child hparent' hother =>
      rw [← hparent.unique hnames hparent'] at hother
      rw [ih hother]

theorem not_cycle (hnames : (defs.map (·.name)).Nodup) (h : Lineage defs id chain) :
    ¬ TransGen (Parent defs) id id :=
  not_transGen_self (h.acc hnames)

theorem nodup (hnames : (defs.map (·.name)).Nodup) (h : Lineage defs id chain) : chain.Nodup := by
  induction h with
  | root _ _ => exact List.nodup_singleton _
  | child hparent hchain ih =>
    refine List.nodup_cons.2 ⟨fun hmem => ?_, ih⟩
    exact (child hparent hchain).not_cycle hnames (.head' hparent (hchain.reaches _ hmem))

theorem length_le (hnames : (defs.map (·.name)).Nodup) (h : Lineage defs id chain) :
    chain.length ≤ defs.length := by
  have hrange : chain ⊆ List.range defs.length := fun j hj => List.mem_range.2 (h.lt_of_mem j hj)
  have hle := ((h.nodup hnames).subperm hrange).length_le
  rwa [List.length_range] at hle

end Lineage

/-- A class whose ancestors are in no cycle has a chain that ends, when all parents have definitions. -/
theorem exists_lineage
    (hnamed : ∀ {id c name}, defs[id]? = some c → c.parent? = some name → ∃ p, Parent defs id p)
    (hid : id < defs.length)
    (hacyclic : ∀ j, ReflTransGen (Parent defs) id j → ¬ TransGen (Parent defs) j j) :
    ∃ chain, Lineage defs id chain := by
  -- Among the ancestors, to be above another one is a well-founded order, as they are finitely many.
  let above (a b : Fin defs.length) : Prop :=
    ReflTransGen (Parent defs) id b ∧ TransGen (Parent defs) b a
  have htrans : IsTrans _ above :=
    ⟨fun a b c hab hbc => ⟨hbc.1, hbc.2.trans hab.2⟩⟩
  have hirrefl : Std.Irrefl above := ⟨fun a ha => hacyclic a ha.1 ha.2⟩
  have hwf := Finite.wellFounded_of_trans_of_irrefl above
  suffices h : ∀ j : Fin defs.length, ReflTransGen (Parent defs) id j →
      ∃ chain, Lineage defs j chain from h ⟨id, hid⟩ .refl
  intro j
  induction j using hwf.induction with
  | _ j ih =>
    intro hreach
    have hj := List.getElem?_eq_getElem j.isLt
    cases hroot : (defs[j]).parent? with
    | none => exact ⟨[j.1], .root hj hroot⟩
    | some name =>
      obtain ⟨p, hp⟩ := hnamed hj hroot
      have hlt := hp.parent_lt
      obtain ⟨chain, hchain⟩ := ih ⟨p, hlt⟩ ⟨hreach, .single hp⟩ (hreach.tail hp)
      exact ⟨j.1 :: chain, .child hp hchain⟩

end

end Schema
end UILayout
