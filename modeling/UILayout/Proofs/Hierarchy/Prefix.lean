import UILayout.Proofs.Hierarchy.Steady
import UILayout.Proofs.Strict.Walk

/-!
# UILayout.Proofs.Hierarchy.Prefix

A path that is cut short. What a step stands for depends on the steps before it alone, so a path that is
cut stands for the first items of what the whole path stands for. This holds for the steps that are looked
up in the namespace and for those that select nodes, whatever nodes have been made before.

* `selectViews_take`: steps that select nodes.
* `Coherent.items_cut`: paths.
* `Coherent.selected_cut`: what the last step of a cut path selects.
-/

namespace UILayout

namespace Selector

/-- The path of the first `k` fragments. -/
def Path.cut (p : Path) (k : Nat) : Path := { p with fragments := p.fragments.take k }

end Selector

namespace Hierarchy

open Namespace Selector

/-- The descs of the last step, if there are descs for every step. -/
def Resolution.selected (r : Resolution) : List DescId :=
  if r.isComplete then r.items.getLast?.getD [] else []

section

variable {ctx : Context} {h h' : Hierarchy} {id : DescId}

theorem selectViews_take (ctx : Context) (l : List View) (fragments : List Fragment) (k : Nat) :
    selectViews ctx l (fragments.take k) = (selectViews ctx l fragments).take k := by
  induction fragments generalizing l k with
  | nil => simp [selectViews]
  | cons f rest ih =>
    cases k with
    | zero => rfl
    | succ k =>
      rw [List.take_succ_cons, selectViews, selectViews]
      cases stepViews? ctx l f.step with
      | none => rfl
      | some next =>
        dsimp only
        rw [List.take_succ_cons, ih]

theorem descsFrom_take (ctx : Context) (id : DescId) (fragments : List Fragment) (k : Nat) :
    descsFrom ctx id (fragments.take k) = (descsFrom ctx id fragments).take k := by
  unfold descsFrom
  cases viewsOfDesc? ctx id with
  | none => exact List.take_nil.symm
  | some l => rw [Option.map_some, Option.map_some, Option.getD_some, Option.getD_some,
      selectViews_take, List.map_take]

namespace Coherent

variable (hc : Coherent ctx h) (hc' : Coherent ctx h')

include hc hc'

theorem resolveFrom_take (id : DescId) (fragments : List Fragment) (k : Nat) :
    (h'.resolveFrom ctx id (fragments.take k)).1 = (h.resolveFrom ctx id fragments).1.take k := by
  rw [(hc'.resolveFrom id _).2, (hc.resolveFrom id fragments).2, descsFrom_take]

/-- The first steps are looked up in the namespace, one by one; from there on steps select nodes. -/
theorem resolveNames_take (id : DescId) (bound : Nat) (fragments : List Fragment) (k : Nat) :
    (h'.resolveNames ctx id bound (fragments.take k)).1 =
      (h.resolveNames ctx id bound fragments).1.take k := by
  induction fragments generalizing id bound k with
  | nil => simp [resolveNames]
  | cons f rest ih =>
    cases k with
    | zero => simp [resolveNames]
    | succ k =>
      rw [List.take_succ_cons]
      cases bound with
      | zero =>
        simp only [resolveNames]
        exact hc.resolveFrom_take hc' id (f :: rest) (k + 1)
      | succ bound =>
        simp only [resolveNames]
        cases f.step with
        | child name =>
          dsimp only
          cases ctx.names.child? id name.text with
          | none => rfl
          | some next =>
            dsimp only
            rw [ih, List.take_succ_cons]
        | _ => rfl

/-- A path that is cut stands for the first items of what the whole path stands for. -/
theorem items_cut (id : DescId) (path : Path) (k : Nat) :
    (h'.resolve ctx id (path.cut k)).1.items = (h.resolve ctx id path).1.items.take k := by
  unfold Hierarchy.resolve Path.cut
  dsimp only
  cases path.fragments with
  | nil => simp
  | cons f rest =>
    cases k with
    | zero => simp
    | succ k =>
      rw [List.take_succ_cons]
      dsimp only
      cases hf : f.step with
      | root =>
        simp only
        rw [hc.resolveNames_take hc', List.take_succ_cons]
      | _ =>
        simp only
        exact hc.resolveFrom_take hc' id (f :: rest) (k + 1)

/-- A path that is cut behind a step selects what the step stands for in the whole path. -/
theorem selected_cut (id : DescId) (path : Path) {i : Nat} (hi : i < path.fragments.length) :
    (h'.resolve ctx id (path.cut (i + 1))).1.selected =
      ((h.resolve ctx id path).1.items[i]?).getD [] := by
  have hsteps : (h'.resolve ctx id (path.cut (i + 1))).1.steps = i + 1 := by
    show (path.fragments.take (i + 1)).length = i + 1
    rw [List.length_take]
    omega
  unfold Resolution.selected Resolution.isComplete
  rw [hsteps, hc.items_cut hc' id path (i + 1)]
  generalize (h.resolve ctx id path).1.items = items
  by_cases hlt : i < items.length
  · have hlength : (items.take (i + 1)).length = i + 1 := by
      rw [List.length_take]
      omega
    rw [List.getLast?_eq_getElem?, hlength, List.getElem?_take]
    simp
  · have hlength : (items.take (i + 1)).length ≠ i + 1 := by
      rw [List.length_take]
      omega
    rw [if_neg (by simp only [hlength, decide_false, Bool.and_false, Bool.false_eq_true,
      not_false_eq_true]), List.getElem?_eq_none (Nat.le_of_not_lt hlt)]
    rfl

end Coherent

end

end Hierarchy
end UILayout
