import UILayout.Proofs.Namespace.Path
import UILayout.Proofs.Namespace.Trace

/-!
# UILayout.Proofs.Namespace.Persist

Numbers of descs outlive edits. A number that has been given out is never given to another desc, and
a desc that has left the tree does not come back, so whoever kept a number finds the desc of the same
path under it, or none.

* `Outlasts.edit`: what one update does to the numbers that were there before it.
* `outlasts_after`: the same for any further updates.
-/

namespace UILayout
namespace Namespace

/-- All numbers of `n` are still those of the same descs in `m`, and none of them has come back. -/
structure Outlasts (n m : Namespace) : Prop where
  size : n.descs.size ≤ m.descs.size
  keeps : n.Keeps m
  dead : ∀ {id : DescId} {d d' : Desc}, n.descs[id]? = some d → m.descs[id]? = some d' →
    d.live = false → d'.live = false

namespace Outlasts

variable {n m m' : Namespace}

theorem refl (n : Namespace) : Outlasts n n := by
  refine ⟨Nat.le_refl _, .rfl, ?_⟩
  intro id d d' hd hd' hdead
  rw [hd] at hd'
  cases hd'
  exact hdead

theorem trans (h : Outlasts n m) (h' : Outlasts m m') : Outlasts n m' := by
  refine ⟨Nat.le_trans h.size h'.size, h.keeps.trans h'.keeps, ?_⟩
  intro id d d' hd hd' hdead
  obtain ⟨x, hx, -⟩ := h.keeps hd
  exact h'.dead hx hd' (h.dead hd hx hdead)

theorem of_keeps (hkeeps : n.Keeps m)
    (hdead : ∀ {id : DescId} {d d' : Desc}, n.descs[id]? = some d → m.descs[id]? = some d' →
      d.live = false → d'.live = false) : Outlasts n m := by
  refine ⟨?_, hkeeps, hdead⟩
  by_contra hlt
  have hlast : m.descs.size < n.descs.size := Nat.lt_of_not_le hlt
  obtain ⟨d', hd', -⟩ := hkeeps (Array.getElem?_eq_getElem hlast)
  exact Nat.lt_irrefl _ (lt_size hd')

theorem edit (hn : Settled n) (u : Update) : Outlasts n (u.edit n).names := by
  have htrace := trace_edit hn u
  refine .of_keeps htrace.keeps ?_
  intro id d d' hd hd' hdead
  rw [← Bool.not_eq_true] at hdead ⊢
  exact fun hlive => hdead (htrace.stays hd hd' hlive)

/-- A desc is found under the path that it had, or it has left the tree. -/
theorem path (h : Outlasts n m) (hn : IsTree n) (hm : IsTree m) {id : DescId} {path : List String}
    (hp : n.path? id = some path) :
    m.path? id = some path ∧ m.follow? Namespace.root path = some id ∨ m.live? id = none := by
  obtain ⟨d, hd⟩ := live_of_path? hp
  cases hd' : m.live? id with
  | none => exact .inr rfl
  | some d' =>
    have hpath : m.path? id = some path := (hn.path?_keeps hm h.keeps hd hd').trans hp
    exact .inl ⟨hpath, hm.follow?_of_path? hpath⟩

end Outlasts

/-- Whatever updates follow, the numbers that have been given out keep their descs, a desc that is out
of the tree stays out, and one that is in it keeps its path for as long as it stays. -/
theorem outlasts_after (history more : List Update) :
    Outlasts (after history) (after (history ++ more)) ∧
      ∀ (id : DescId) (path : List String), (after history).path? id = some path →
        (after (history ++ more)).path? id = some path ∧
            (after (history ++ more)).follow? Namespace.root path = some id ∨
          (after (history ++ more)).live? id = none := by
  have hout : Outlasts (after history) (after (history ++ more)) := by
    induction more using List.reverseRecOn with
    | nil =>
      rw [List.append_nil]
      exact .refl _
    | append_singleton more u ih =>
      rw [← List.append_assoc, after_append]
      exact ih.trans (.edit (settled_after _) u)
  refine ⟨hout, fun id path hp => ?_⟩
  exact hout.path (settled_after history).tree (settled_after _).tree hp

end Namespace
end UILayout
