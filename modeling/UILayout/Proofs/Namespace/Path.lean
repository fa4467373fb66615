import UILayout.Hierarchy.Build
import UILayout.Proofs.Namespace.Tree

/-!
# UILayout.Proofs.Namespace.Path

The path of a desc: the names from the root down to it. In a tree every desc is found under its path,
and keeps it while it stays in the tree.

* `IsTree.path?_induct`: what passes from each desc to its children holds of all descs.
* `IsTree.follow?_iff`: a path leads to a desc just when it is the path of the desc.
* `IsTree.path?_keeps`: edits change no path.
-/

namespace UILayout
namespace Namespace

/-- The names from the root down to a desc of the tree. -/
def path? (n : Namespace) (id : DescId) : Option (List String) :=
  (Hierarchy.namesUp? n id).map List.reverse

theorem follow?_append (n : Namespace) (id : DescId) (names more : List String) :
    n.follow? id (names ++ more) = (n.follow? id names).bind (n.follow? · more) := by
  induction names generalizing id with
  | nil => rfl
  | cons name rest ih =>
    rw [List.cons_append, follow?, follow?]
    cases n.child? id name with
    | none => rfl
    | some child => exact ih child

theorem live_of_path? {n : Namespace} {id : DescId} {path : List String} (h : n.path? id = some path) :
    ∃ d, n.live? id = some d := by
  obtain ⟨names, hnames, -⟩ := Option.map_eq_some_iff.1 h
  rw [Hierarchy.namesUp?] at hnames
  obtain ⟨d, hd, -⟩ := Option.bind_eq_some_iff.1 hnames
  exact ⟨d, hd⟩

theorem path?_below {n : Namespace} {id p : DescId} {d pd : Desc} (hd : n.live? id = some d)
    (hb : d.IsBelow id p pd) : n.path? id = (n.path? p).map (· ++ [d.name]) := by
  rw [path?, Hierarchy.namesUp?, hd, Option.bind_some, if_neg hb.kind_ne, hb.parent?]
  simp only [hb.lt, if_true, path?, Option.map_map]
  congr 1
  funext names
  simp

namespace IsTree

variable {n n' : Namespace}

theorem live_root (h : IsTree n) : ∃ d, n.live? Namespace.root = some d ∧ d.parent? = none := by
  obtain ⟨d, hd, -, hp, -⟩ := h.root
  exact ⟨d, live?_eq_some_iff.2 ⟨hd, h.rootLive hd⟩, hp⟩

theorem path?_root (h : IsTree n) : n.path? Namespace.root = some [] := by
  obtain ⟨d, hd, hk, -⟩ := h.root
  have hl : n.live? Namespace.root = some d := live?_eq_some_iff.2 ⟨hd, h.rootLive hd⟩
  rw [path?, Hierarchy.namesUp?, hl, Option.bind_some, if_pos hk]
  rfl

/-- A desc of the tree hangs below another one, unless it is the root. -/
theorem live_parent (h : IsTree n) {id : DescId} {d : Desc} (hd : n.live? id = some d)
    (hroot : id ≠ Namespace.root) :
    ∃ p pd, n.live? p = some pd ∧ d.IsBelow id p pd ∧ pd.children.get? d.name = some id := by
  obtain ⟨hid, hl⟩ := live?_eq_some_iff.1 hd
  obtain ⟨p, pd, hpd, hb⟩ := h.below hid hroot
  obtain ⟨pd', hpd', hpl, hget⟩ := h.listed hid hl hb.parent?
  rw [hpd] at hpd'
  cases hpd'
  exact ⟨p, pd, live?_eq_some_iff.2 ⟨hpd, hpl⟩, hb, hget⟩

theorem live_child (h : IsTree n) {p c : DescId} {pd : Desc} {name : String}
    (hp : n.live? p = some pd) (hc : pd.children.get? name = some c) :
    ∃ d, n.live? c = some d ∧ d.name = name ∧ d.parent? = some p := by
  obtain ⟨d, hd, hl, hname, hpar⟩ := h.child (live?_eq_some_iff.1 hp).1 hc
  exact ⟨d, live?_eq_some_iff.2 ⟨hd, hl⟩, hname, hpar⟩

theorem path?_child (h : IsTree n) {p c : DescId} {path : List String} {name : String}
    (hp : n.path? p = some path) (hc : n.child? p name = some c) :
    n.path? c = some (path ++ [name]) := by
  obtain ⟨pd, hpd, hget⟩ := Option.bind_eq_some_iff.1 hc
  obtain ⟨d, hd, rfl, hpar⟩ := h.live_child hpd hget
  obtain ⟨pd', -, hb⟩ := h.below_of_parent? (live?_eq_some_iff.1 hd).1 hpar
  rw [path?_below hd hb, hp, Option.map_some]

theorem exists_path (h : IsTree n) {id : DescId} {d : Desc} (hd : n.live? id = some d) :
    ∃ path, n.path? id = some path := by
  induction id using Nat.strongRecOn generalizing d with
  | ind id ih =>
    by_cases hroot : id = Namespace.root
    · subst hroot
      exact ⟨[], h.path?_root⟩
    · obtain ⟨p, pd, hpd, hb, -⟩ := h.live_parent hd hroot
      obtain ⟨path, hpath⟩ := ih p hb.lt hpd
      exact ⟨path ++ [d.name], by rw [path?_below hd hb, hpath, Option.map_some]⟩

/-- Down the tree: from a desc and its path to each of its children. -/
theorem path?_induct (h : IsTree n) {P : DescId → Desc → List String → Prop}
    (root : ∀ {d : Desc}, n.live? Namespace.root = some d → P Namespace.root d [])
    (below : ∀ {p id : DescId} {pd d : Desc} {path : List String}, n.live? id = some d →
      d.IsBelow id p pd → n.child? p d.name = some id → n.path? p = some path → P p pd path →
        P id d (path ++ [d.name]))
    {id : DescId} {d : Desc} {path : List String} (hd : n.live? id = some d)
    (hp : n.path? id = some path) : P id d path := by
  induction id using Nat.strongRecOn generalizing d path with
  | ind id ih =>
    by_cases hroot : id = Namespace.root
    · subst hroot
      rw [h.path?_root] at hp
      cases hp
      exact root hd
    · obtain ⟨p, pd, hpd, hb, hget⟩ := h.live_parent hd hroot
      rw [path?_below hd hb] at hp
      obtain ⟨above, habove, rfl⟩ := Option.map_eq_some_iff.1 hp
      have hchild : n.child? p d.name = some id := by rw [child?, hpd, Option.bind_some, hget]
      exact below hd hb hchild habove (ih p hb.lt hpd habove)

theorem follow?_of_path? (h : IsTree n) {id : DescId} {path : List String}
    (hp : n.path? id = some path) : n.follow? Namespace.root path = some id := by
  obtain ⟨d, hd⟩ := live_of_path? hp
  refine h.path?_induct (P := fun id _ path => n.follow? Namespace.root path = some id) ?_ ?_ hd hp
  · exact fun _ => rfl
  · intro p id pd d above _ _ hchild _ ih
    rw [follow?_append, ih, Option.bind_some, follow?, hchild]
    rfl

theorem path?_of_follow? (h : IsTree n) {path : List String} {id above : DescId}
    {names : List String} (hp : n.path? above = some path)
    (hf : n.follow? above names = some id) : n.path? id = some (path ++ names) := by
  induction names generalizing above path with
  | nil =>
    cases hf
    rw [hp, List.append_nil]
  | cons name rest ih =>
    rw [follow?] at hf
    obtain ⟨child, hc, hrest⟩ := Option.bind_eq_some_iff.1 hf
    rw [ih (h.path?_child hp hc) hrest, List.append_assoc, List.singleton_append]

theorem follow?_iff (h : IsTree n) (id : DescId) (path : List String) :
    n.follow? Namespace.root path = some id ↔ n.path? id = some path :=
  ⟨fun hf => by simpa using h.path?_of_follow? h.path?_root hf, h.follow?_of_path?⟩

theorem path?_injective (h : IsTree n) {id other : DescId} {path : List String}
    (h₁ : n.path? id = some path) (h₂ : n.path? other = some path) : id = other :=
  Option.some.inj ((h.follow?_of_path? h₁).symm.trans (h.follow?_of_path? h₂))

/-- The path of a desc ends with its name, and has no other one just when the desc is a file. -/
theorem path?_eq_append (h : IsTree n) {id : DescId} {d : Desc} (hd : n.live? id = some d)
    (hroot : id ≠ Namespace.root) :
    ∃ above, n.path? id = some (above ++ [d.name]) ∧ (above = [] ↔ d.kind = .file) := by
  obtain ⟨p, pd, hpd, hb, -⟩ := h.live_parent hd hroot
  obtain ⟨above, habove⟩ := h.exists_path hpd
  refine ⟨above, by rw [path?_below hd hb, habove, Option.map_some], ?_⟩
  rw [hb.kind_iff]
  constructor
  · rintro rfl
    exact h.path?_injective habove h.path?_root
  · rintro rfl
    rw [h.path?_root] at habove
    exact (Option.some.inj habove).symm

/-- Descs that are in the tree before and after an edit have kept their path. -/
theorem path?_keeps (h : IsTree n) (h' : IsTree n') (hk : n.Keeps n') {id : DescId} {d d' : Desc}
    (hd : n.live? id = some d) (hd' : n'.live? id = some d') : n'.path? id = n.path? id := by
  induction id using Nat.strongRecOn generalizing d d' with
  | ind id ih =>
    by_cases hroot : id = Namespace.root
    · subst hroot
      rw [h.path?_root, h'.path?_root]
    · obtain ⟨p, pd, hpd, hb, -⟩ := h.live_parent hd hroot
      obtain ⟨p', pd', hpd', hb', -⟩ := h'.live_parent hd' hroot
      obtain ⟨d'', hd'', hsame⟩ := hk (live?_eq_some_iff.1 hd).1
      rw [(live?_eq_some_iff.1 hd').1] at hd''
      cases hd''
      have hpp : p' = p := Option.some.inj (by rw [← hb'.parent?, ← hb.parent?, hsame.parent?])
      subst hpp
      rw [path?_below hd hb, path?_below hd' hb', ih p' hb.lt hpd hpd', hsame.name]

theorem path?_of_descs {m : Namespace} (h : IsTree n) (hd : m.descs = n.descs) (id : DescId) :
    m.path? id = n.path? id := by
  have hl : m.live? id = n.live? id := by rw [live?, live?, hd]
  cases hid : n.live? id with
  | none =>
    rw [path?, path?, Hierarchy.namesUp?, Hierarchy.namesUp?, hl, hid]
    rfl
  | some d =>
    exact h.path?_keeps (h.of_descs hd) (fun j x hx => ⟨x, by rw [hd, hx], .rfl⟩) hid (hl.trans hid)

end IsTree

end Namespace
end UILayout
