import UILayout.Proofs.Namespace.Edit
import UILayout.Proofs.OrderedMap

/-!
# UILayout.Proofs.Namespace.Tree

The shape of the namespace. `Hangs` says what a desc owes to its parent, for good; `IsTree` adds that
links up and links down agree. Every single step of an edit keeps both, also between taking a
document back and pruning, when descs without declarations are still in the tree.

* `IsTree.declareNew`, `IsTree.unlink`: a new desc and a desc that leaves keep the shape.
* `IsTree.of_children`: declarations are no part of it.
-/

namespace UILayout
namespace Namespace

/-- The file of the descs right below a desc. -/
def Desc.fileBelow (d : Desc) : Option String :=
  match d.kind with
  | .root => none
  | .file => some d.name
  | _ => d.file?

theorem Desc.SameOrigin.fileBelow {d d' : Desc} (h : d.SameOrigin d') :
    d'.fileBelow = d.fileBelow := by
  simp only [Desc.fileBelow, h.kind, h.name, h.file?]

/-- `pd`, at `p`, is the parent of `d`, at `id`. -/
structure Desc.IsBelow (d : Desc) (id p : DescId) (pd : Desc) : Prop where
  parent? : d.parent? = some p
  lt : p < id
  kind_ne : d.kind ≠ .root
  kind_iff : d.kind = .file ↔ p = Namespace.root
  file? : d.file? = pd.fileBelow

structure Hangs (n : Namespace) : Prop where
  root : ∃ d, n.descs[Namespace.root]? = some d ∧ d.kind = .root ∧ d.parent? = none ∧ d.name = "" ∧
    d.file? = none
  below : ∀ {id : DescId} {d : Desc}, n.descs[id]? = some d → id ≠ Namespace.root →
    ∃ p pd, n.descs[p]? = some pd ∧ d.IsBelow id p pd

structure IsTree (n : Namespace) : Prop extends Hangs n where
  rootLive : ∀ {d : Desc}, n.descs[Namespace.root]? = some d → d.live = true
  listed : ∀ {id : DescId} {d : Desc} {p : DescId}, n.descs[id]? = some d → d.live = true →
    d.parent? = some p → ∃ pd, n.descs[p]? = some pd ∧ pd.live = true ∧
      pd.children.get? d.name = some id
  child : ∀ {p : DescId} {pd : Desc} {name : String} {c : DescId}, n.descs[p]? = some pd →
    pd.children.get? name = some c →
    ∃ d, n.descs[c]? = some d ∧ d.live = true ∧ d.name = name ∧ d.parent? = some p
  distinct : ∀ {p : DescId} {pd : Desc}, n.descs[p]? = some pd → pd.children.keys.Nodup

theorem live?_eq_some_iff {n : Namespace} {id : DescId} {d : Desc} :
    n.live? id = some d ↔ n.descs[id]? = some d ∧ d.live = true := by
  simp [live?, Option.filter_eq_some_iff]

theorem lt_size {n : Namespace} {id : DescId} {d : Desc} (h : n.descs[id]? = some d) :
    id < n.descs.size :=
  (Array.getElem?_eq_some_iff.1 h).1

theorem descs_empty {id : DescId} {d : Desc} (h : Namespace.empty.descs[id]? = some d) :
    id = Namespace.root ∧ d = .root := by
  obtain ⟨hlt, rfl⟩ := Array.getElem?_eq_some_iff.1 h
  have hid : id = 0 := Nat.lt_one_iff.1 hlt
  subst hid
  exact ⟨rfl, rfl⟩

theorem IsTree.empty : IsTree Namespace.empty := by
  refine ⟨⟨⟨.root, rfl, rfl, rfl, rfl, rfl⟩, ?_⟩, ?_, ?_, ?_, ?_⟩
  · intro id d h hne
    exact absurd (descs_empty h).1 hne
  · intro d h
    rw [(descs_empty h).2]
    rfl
  · intro id d p h _ hp
    obtain ⟨-, rfl⟩ := descs_empty h
    cases hp
  · intro p pd name c h hc
    obtain ⟨-, rfl⟩ := descs_empty h
    cases hc
  · intro p pd h
    obtain ⟨-, rfl⟩ := descs_empty h
    simp [Desc.root]

/-! ## What the shape says -/

section

variable {n n' : Namespace}

theorem Hangs.kind_eq_root_iff (h : Hangs n) {id : DescId} {d : Desc} (hd : n.descs[id]? = some d) :
    d.kind = .root ↔ id = Namespace.root := by
  constructor
  · intro hk
    by_contra hne
    obtain ⟨p, pd, -, hb⟩ := h.below hd hne
    exact hb.kind_ne hk
  · rintro rfl
    obtain ⟨d', hd', hk, -⟩ := h.root
    rw [hd] at hd'
    cases hd'
    exact hk

theorem Hangs.below_of_parent? (h : Hangs n) {id p : DescId} {d : Desc} (hd : n.descs[id]? = some d)
    (hp : d.parent? = some p) : ∃ pd, n.descs[p]? = some pd ∧ d.IsBelow id p pd := by
  have hne : id ≠ Namespace.root := by
    rintro rfl
    obtain ⟨d', hd', -, hnone, -⟩ := h.root
    rw [hd] at hd'
    cases hd'
    rw [hp] at hnone
    cases hnone
  obtain ⟨p', pd, hpd, hb⟩ := h.below hd hne
  have hpp : p' = p := Option.some.inj (hb.parent?.symm.trans hp)
  subst hpp
  exact ⟨pd, hpd, hb⟩

/-- What hangs together stays so when every desc keeps what it was made as. -/
theorem Hangs.keeps (h : Hangs n) (hk : n.Keeps n') (hs : n'.descs.size = n.descs.size) :
    Hangs n' := by
  constructor
  · obtain ⟨d, hd, h1, h2, h3, h4⟩ := h.root
    obtain ⟨d', hd', hs⟩ := hk hd
    exact ⟨d', hd', by rw [hs.kind, h1], by rw [hs.parent?, h2], by rw [hs.name, h3],
      by rw [hs.file?, h4]⟩
  · intro id d' hd' hne
    have hlt : id < n.descs.size := hs ▸ lt_size hd'
    obtain ⟨d'', hd'', hsame⟩ := hk (Array.getElem?_eq_getElem hlt)
    rw [hd'] at hd''
    cases hd''
    obtain ⟨p, pd, hpd, hb⟩ := h.below (Array.getElem?_eq_getElem hlt) hne
    obtain ⟨pd', hpd', hpsame⟩ := hk hpd
    exact ⟨p, pd', hpd', by rw [hsame.parent?, hb.parent?], hb.lt, by rw [hsame.kind]; exact hb.kind_ne,
      by rw [hsame.kind]; exact hb.kind_iff, by rw [hsame.file?, hb.file?, hpsame.fileBelow]⟩

/-- A child is younger than its parent. -/
theorem IsTree.lt_child (h : IsTree n) {p c : DescId} {pd : Desc} {name : String}
    (hp : n.descs[p]? = some pd) (hc : pd.children.get? name = some c) : p < c := by
  obtain ⟨d, hd, -, -, hpar⟩ := h.child hp hc
  obtain ⟨pd', -, hb⟩ := h.below_of_parent? hd hpar
  exact hb.lt

/-- Nothing that does not touch links changes the shape. -/
theorem IsTree.of_children (h : IsTree n) (hk : n.Keeps n') (hs : n'.descs.size = n.descs.size)
    (hc : ∀ {id : DescId} {d d' : Desc}, n.descs[id]? = some d → n'.descs[id]? = some d' →
      d'.live = d.live ∧ d'.children = d.children) : IsTree n' := by
  have old : ∀ {id : DescId} {d' : Desc}, n'.descs[id]? = some d' →
      ∃ d, n.descs[id]? = some d ∧ d.SameOrigin d' ∧ d'.live = d.live ∧ d'.children = d.children := by
    intro id d' hd'
    have hd := Array.getElem?_eq_getElem (hs ▸ lt_size hd' : id < n.descs.size)
    obtain ⟨d'', hd'', hsame⟩ := hk hd
    rw [hd'] at hd''
    cases hd''
    exact ⟨_, hd, hsame, hc hd hd'⟩
  have new : ∀ {id : DescId} {d : Desc}, n.descs[id]? = some d →
      ∃ d', n'.descs[id]? = some d' ∧ d.SameOrigin d' ∧ d'.live = d.live ∧ d'.children = d.children := by
    intro id d hd
    obtain ⟨d', hd', hsame⟩ := hk hd
    exact ⟨d', hd', hsame, hc hd hd'⟩
  refine ⟨h.toHangs.keeps hk hs, ?_, ?_, ?_, ?_⟩
  · intro d' hd'
    obtain ⟨d, hd, -, hl, -⟩ := old hd'
    rw [hl, h.rootLive hd]
  · intro id d' p hd' hl hp
    obtain ⟨d, hd, hsame, hlive, -⟩ := old hd'
    obtain ⟨pd, hpd, hpl, hget⟩ := h.listed hd (by rw [← hlive, hl]) (by rw [← hsame.parent?, hp])
    obtain ⟨pd', hpd', -, hpl', hpc⟩ := new hpd
    exact ⟨pd', hpd', by rw [hpl', hpl], by rw [hpc, hsame.name, hget]⟩
  · intro p pd' name c hpd' hget
    obtain ⟨pd, hpd, -, -, hpc⟩ := old hpd'
    obtain ⟨d, hd, hl, hname, hp⟩ := h.child hpd (by rw [← hpc, hget])
    obtain ⟨d', hd', hsame, hl', -⟩ := new hd
    exact ⟨d', hd', by rw [hl', hl], by rw [hsame.name, hname], by rw [hsame.parent?, hp]⟩
  · intro p pd' hpd'
    obtain ⟨pd, hpd, -, -, hpc⟩ := old hpd'
    rw [hpc]
    exact h.distinct hpd

theorem IsTree.of_descs (h : IsTree n) (hd : n'.descs = n.descs) : IsTree n' := by
  refine h.of_children ?_ (by rw [hd]) ?_
  · intro id d hid
    exact ⟨d, by rw [hd, hid], .rfl⟩
  · intro id d d' hid hid'
    rw [hd, hid] at hid'
    cases hid'
    exact ⟨rfl, rfl⟩

/-- All descs but some stay in their places, and so do their children but for these. -/
def Retains (n n' : Namespace) (gone : DescId → Prop) : Prop :=
  ∀ ⦃id : DescId⦄ ⦃d : Desc⦄, n.descs[id]? = some d → ¬ gone id → ∃ d', n'.descs[id]? = some d' ∧
    d.SameOrigin d' ∧ d'.live = d.live ∧
    ∀ name c, d.children.get? name = some c → ¬ gone c → d'.children.get? name = some c

variable {gone : DescId → Prop} {id p c : DescId} {d pd : Desc}

theorem IsTree.listed_of_retains (h : IsTree n) (hr : Retains n n' gone)
    (hd : n.descs[id]? = some d) (hl : d.live = true) (hp : d.parent? = some p) (hid : ¬ gone id)
    (hpg : ¬ gone p) :
    ∃ pd, n'.descs[p]? = some pd ∧ pd.live = true ∧ pd.children.get? d.name = some id := by
  obtain ⟨pd, hpd, hpl, hget⟩ := h.listed hd hl hp
  obtain ⟨pd', hpd', -, hl', hget'⟩ := hr hpd hpg
  exact ⟨pd', hpd', by rw [hl', hpl], hget' _ _ hget hid⟩

theorem IsTree.child_of_retains (h : IsTree n) (hr : Retains n n' gone)
    (hpd : n.descs[p]? = some pd) {name : String} (hget : pd.children.get? name = some c)
    (hc : ¬ gone c) :
    ∃ d, n'.descs[c]? = some d ∧ d.live = true ∧ d.name = name ∧ d.parent? = some p := by
  obtain ⟨d, hd, hl, hname, hpar⟩ := h.child hpd hget
  obtain ⟨d', hd', hsame, hl', -⟩ := hr hd hc
  exact ⟨d', hd', by rw [hl', hl], by rw [hsame.name, hname], by rw [hsame.parent?, hpar]⟩

end

/-! ## Steps that keep it -/

section

variable {e e' : Edit}

theorem IsTree.declareOld (h : IsTree e.names) {id : DescId} {site : Site}
    (hd : Edit.DeclaringOld e e' id site) : IsTree e'.names := by
  apply h.of_children hd.keeps hd.size
  intro j d d' hj hj'
  rw [hd.descs, hj] at hj'
  split at hj'
  · cases hj'
    exact ⟨Desc.live_declared _ _ _, Desc.children_declared _ _ _⟩
  · cases hj'
    exact ⟨rfl, rfl⟩

section DeclareNew

variable {scope : DescId} {p : Desc} {name : String} {kind : DescKind} {site : Site}

theorem Hangs.declareNew (h : Hangs e.names) (hp : e.names.descs[scope]? = some p)
    (hkind : kind ≠ .root) (hfile : kind = .file ↔ scope = Namespace.root)
    (hd : Edit.DeclaringNew e e' scope p name kind site) : Hangs e'.names := by
  have keeps := hd.keeps hp
  -- a desc that was there hangs below what its parent has become
  have old : ∀ {j : DescId} {d d' : Desc}, e.names.descs[j]? = some d → d.SameOrigin d' →
      j ≠ Namespace.root → ∃ q qd, e'.names.descs[q]? = some qd ∧ d'.IsBelow j q qd := by
    intro j d d' hj hsame hne
    obtain ⟨q, qd, hqd, hb⟩ := h.below hj hne
    obtain ⟨qd', hqd', hqs⟩ := keeps hqd
    exact ⟨q, qd', hqd', by rw [hsame.parent?, hb.parent?], hb.lt,
      by rw [hsame.kind]; exact hb.kind_ne, by rw [hsame.kind]; exact hb.kind_iff,
      by rw [hsame.file?, hb.file?, hqs.fileBelow]⟩
  constructor
  · obtain ⟨d, hd, h1, h2, h3, h4⟩ := h.root
    obtain ⟨d', hd', hs⟩ := keeps hd
    exact ⟨d', hd', by rw [hs.kind, h1], by rw [hs.parent?, h2], by rw [hs.name, h3],
      by rw [hs.file?, h4]⟩
  · intro j d hj hne
    rcases hd.cases hp hj with ⟨rfl, rfl⟩ | ⟨rfl, rfl⟩ | ⟨-, hjd⟩
    · exact ⟨scope, _, hd.descs_scope hp, rfl, lt_size hp, hkind, hfile, rfl⟩
    · exact old hp ⟨rfl, rfl, rfl, rfl, rfl⟩ hne
    · exact old hjd .rfl hne

/-- A desc that was there keeps its children: `scope` had none of the new name. -/
theorem Edit.DeclaringNew.retains (hp : e.names.descs[scope]? = some p)
    (hc : p.children.get? name = none) (hd : Edit.DeclaringNew e e' scope p name kind site) :
    Retains e.names e'.names fun _ => False := by
  intro j d hj _
  by_cases hs : j = scope
  · subst hs
    rw [hp] at hj
    cases hj
    refine ⟨_, hd.descs_scope hp, ⟨rfl, rfl, rfl, rfl, rfl⟩, rfl, ?_⟩
    intro x c hx _
    simp only [Desc.withChild]
    rw [OrderedMap.get?_put, if_neg, hx]
    rintro rfl
    rw [hc] at hx
    cases hx
  · exact ⟨d, by rw [hd.descs_other (lt_size hj) hs, hj], .rfl, rfl, fun _ _ hx _ => hx⟩

theorem IsTree.declareNew (h : IsTree e.names) (hp : e.names.descs[scope]? = some p)
    (hlive : p.live = true) (hkind : kind ≠ .root) (hfile : kind = .file ↔ scope = Namespace.root)
    (hc : p.children.get? name = none)
    (hd : Edit.DeclaringNew e e' scope p name kind site) : IsTree e'.names := by
  have hr := hd.retains hp hc
  refine ⟨h.toHangs.declareNew hp hkind hfile hd, ?_, ?_, ?_, ?_⟩
  · intro d hroot
    rcases hd.cases hp hroot with ⟨hr, -⟩ | ⟨-, rfl⟩ | ⟨-, hr⟩
    · exact absurd (hr ▸ lt_size hp) (Nat.not_lt_zero _)
    · exact hlive
    · exact h.rootLive hr
  · intro j d q hj hl hq
    rcases hd.cases hp hj with ⟨rfl, rfl⟩ | ⟨rfl, rfl⟩ | ⟨-, hjd⟩
    · cases hq
      refine ⟨_, hd.descs_scope hp, hlive, ?_⟩
      simp [Desc.withChild, Desc.childOf, OrderedMap.get?_put]
    · exact h.listed_of_retains hr (d := p) hp hlive hq id id
    · exact h.listed_of_retains hr hjd hl hq id id
  · intro q qd x c hq hx
    rcases hd.cases hp hq with ⟨rfl, rfl⟩ | ⟨rfl, rfl⟩ | ⟨-, hqd⟩
    · simp [Desc.childOf] at hx
    · simp only [Desc.withChild] at hx
      rw [OrderedMap.get?_put] at hx
      split at hx
      · rename_i hxn
        cases hx
        exact ⟨_, hd.descs_new, rfl, hxn.symm, rfl⟩
      · exact h.child_of_retains hr hp hx id
    · exact h.child_of_retains hr hqd hx id
  · intro q qd hq
    rcases hd.cases hp hq with ⟨rfl, rfl⟩ | ⟨rfl, rfl⟩ | ⟨-, hqd⟩
    · simp [Desc.childOf]
    · exact OrderedMap.nodup_keys_put (h.distinct hp) _ _
    · exact h.distinct hqd

end DeclareNew

/-- What stays in the tree does so with its children, but for the desc that leaves. -/
theorem Edit.Unlinking.retains {id parent : DescId} {d pd : Desc} (hne : parent ≠ id)
    (hpd : e.names.descs[parent]? = some pd) (hlisted : pd.children.get? d.name = some id)
    (hu : Edit.Unlinking e e' id d parent) : Retains e.names e'.names (· = id) := by
  intro j x hx hj
  by_cases hjp : j = parent
  · subst hjp
    rw [hpd] at hx
    cases hx
    refine ⟨_, hu.descs_parent hne hpd, ⟨rfl, rfl, rfl, rfl, rfl⟩, rfl, ?_⟩
    intro y c hy hc
    simp only [Desc.withoutChild]
    rw [OrderedMap.get?_erase, if_neg, hy]
    rintro rfl
    rw [hlisted] at hy
    exact hc (Option.some.inj hy).symm
  · exact ⟨x, by rw [hu.descs_other hj hjp, hx], .rfl, rfl, fun _ _ hy _ => hy⟩

theorem IsTree.unlink (h : IsTree e.names) {id parent : DescId} {d : Desc}
    (hd : e.names.descs[id]? = some d) (hlive : d.live = true) (hb : d.children.isEmpty = true)
    (hp : d.parent? = some parent) (hu : Edit.Unlinking e e' id d parent) : IsTree e'.names := by
  rw [OrderedMap.isEmpty_iff] at hb
  obtain ⟨pd, hpd, hplive, hlisted⟩ := h.listed hd hlive hp
  have hlt : parent < id := h.lt_child hpd hlisted
  have hne : parent ≠ id := Nat.ne_of_lt hlt
  have hroot : Namespace.root ≠ id := (Nat.ne_of_lt (Nat.zero_lt_of_lt hlt))
  have hr := hu.retains hne hpd hlisted
  have stays : ∀ {j q : DescId} {x : Desc}, e.names.descs[j]? = some x → x.live = true →
      x.parent? = some q → q ≠ id := by
    rintro j q x hx hl hq rfl
    obtain ⟨qd, hqd, -, hget⟩ := h.listed hx hl hq
    rw [hd] at hqd
    cases hqd
    rw [hb] at hget
    cases hget
  have hangs : Hangs e'.names := h.toHangs.keeps hu.keeps hu.size
  refine ⟨hangs, ?_, ?_, ?_, ?_⟩
  · intro x hx
    rcases hu.cases hne hd hpd hx with ⟨hr, -⟩ | ⟨-, rfl⟩ | ⟨-, -, hr⟩
    · exact absurd hr hroot
    · exact hplive
    · exact h.rootLive hr
  · intro j x q hx hl hq
    rcases hu.cases hne hd hpd hx with ⟨rfl, rfl⟩ | ⟨rfl, rfl⟩ | ⟨hj, -, hx₀⟩
    · cases hl
    · exact h.listed_of_retains hr (d := pd) hpd hplive hq hne (stays hpd hplive hq)
    · exact h.listed_of_retains hr hx₀ hl hq hj (stays hx₀ hl hq)
  · intro q qd y c hq hy
    rcases hu.cases hne hd hpd hq with ⟨rfl, rfl⟩ | ⟨rfl, rfl⟩ | ⟨-, hqp, hq₀⟩
    · exact absurd hy (by rw [hb]; simp)
    · simp only [Desc.withoutChild] at hy
      rw [OrderedMap.get?_erase] at hy
      split at hy
      · cases hy
      · rename_i hyn
        refine h.child_of_retains hr hpd hy ?_
        rintro rfl
        obtain ⟨x, hx, -, hname, -⟩ := h.child hpd hy
        rw [hd] at hx
        cases hx
        exact hyn hname.symm
    · refine h.child_of_retains hr hq₀ hy ?_
      rintro rfl
      obtain ⟨x, hx, -, -, hpar⟩ := h.child hq₀ hy
      rw [hd] at hx
      cases hx
      rw [hp] at hpar
      exact hqp (Option.some.inj hpar).symm
  · intro q qd hq
    rcases hu.cases hne hd hpd hq with ⟨rfl, rfl⟩ | ⟨rfl, rfl⟩ | ⟨-, -, hr⟩
    · have hkeys := h.distinct hd
      exact hkeys
    · exact OrderedMap.nodup_keys_erase (h.distinct hpd) _
    · exact h.distinct hr

end

end Namespace
end UILayout
