import UILayout.Proofs.Hierarchy.Walk

/-!
# UILayout.Proofs.Hierarchy.Steady

Questions whose answers name no nodes. Such a question is steady when it is answered alike by all
coherent hierarchies and leaves them coherent; questions that are asked one after the other are steady
if each of them is.

* `Steady.bind`: asking one question after the other.
* `steady_resolve`: what a path stands for.
-/

namespace UILayout
namespace Hierarchy

open Namespace Schema Markup Selector

variable {α β : Type} {ctx : Context}

structure Steady (ctx : Context) (f : Hierarchy → α × Hierarchy) : Prop where
  coherent : ∀ {h : Hierarchy}, Coherent ctx h → Coherent ctx (f h).2
  agrees : ∀ {h h' : Hierarchy}, Coherent ctx h → Coherent ctx h' → (f h).1 = (f h').1

namespace Steady

theorem const (ctx : Context) (a : α) : Steady ctx fun h => (a, h) := ⟨fun hc => hc, fun _ _ => rfl⟩

theorem bind {f : Hierarchy → α × Hierarchy} {g : α → Hierarchy → β × Hierarchy} (hf : Steady ctx f)
    (hg : ∀ a, Steady ctx (g a)) : Steady ctx fun h => g (f h).1 (f h).2 := by
  refine ⟨fun hc => (hg _).coherent (hf.coherent hc), ?_⟩
  intro h h' hc hc'
  show (g (f h).1 (f h).2).1 = (g (f h').1 (f h').2).1
  rw [hf.agrees hc hc']
  exact (hg _).agrees (hf.coherent hc) (hf.coherent hc')

theorem map {f : Hierarchy → α × Hierarchy} (hf : Steady ctx f) (g : α → β) :
    Steady ctx fun h => (g (f h).1, (f h).2) :=
  hf.bind fun a => const ctx (g a)

theorem of_eq {f : Hierarchy → β × Hierarchy} {g : Hierarchy → α × Hierarchy} (hg : Steady ctx g)
    (k : α → β) (h : ∀ x, f x = (k (g x).1, (g x).2)) : Steady ctx f := by
  rw [funext h]
  exact hg.map k

end Steady

/-! ## Resolving paths -/

/-- The descs of what some steps select from the node of a desc, said of views alone. -/
def descsFrom (ctx : Context) (id : DescId) (fragments : List Fragment) : List (List DescId) :=
  (((viewsOfDesc? ctx id).map (selectViews ctx · fragments)).getD []).map fun l =>
    (l.head?.map (·.descs)).getD []

/-- Steps lead to what the views say, whatever nodes have been made before. -/
theorem Coherent.resolveFrom {h : Hierarchy} (hc : Coherent ctx h) (id : DescId)
    (fragments : List Fragment) : Coherent ctx (h.resolveFrom ctx id fragments).2 ∧
      (h.resolveFrom ctx id fragments).1 = descsFrom ctx id fragments := by
  unfold Hierarchy.resolveFrom descsFrom
  split
  · rename_i hnil
    rw [List.isEmpty_iff.1 hnil]
    refine ⟨hc, ?_⟩
    cases viewsOfDesc? ctx id <;> rfl
  · obtain ⟨hc₁, -, hanswer⟩ := hc.ofDesc id
    generalize h.ofDesc ctx id = r at hc₁ hanswer
    obtain ⟨c, h₁⟩ := r
    generalize viewsOfDesc? ctx id = out at hanswer
    cases hanswer with
    | none => exact ⟨hc₁, rfl⟩
    | some hd =>
      have hselected := hc₁.selectSteps hd fragments
      exact ⟨hselected.coherent, hselected.answer.map_node? View.descs []⟩

theorem steady_resolveFrom (ctx : Context) (id : DescId) (fragments : List Fragment) :
    Steady ctx fun h => h.resolveFrom ctx id fragments :=
  ⟨fun hc => (hc.resolveFrom id fragments).1, fun hc hc' =>
    (hc.resolveFrom id fragments).2.trans (hc'.resolveFrom id fragments).2.symm⟩

theorem steady_resolveNames (ctx : Context) (id : DescId) (bound : Nat) (fragments : List Fragment) :
    Steady ctx fun h => h.resolveNames ctx id bound fragments := by
  induction fragments generalizing id bound with
  | nil =>
    simp only [resolveNames]
    exact .const ctx []
  | cons f rest ih =>
    cases bound with
    | zero =>
      simp only [resolveNames]
      exact steady_resolveFrom ctx id (f :: rest)
    | succ bound =>
      simp only [resolveNames]
      cases f.step with
      | child name =>
        dsimp only
        cases ctx.names.child? id name.text with
        | none => exact .const ctx []
        | some next => exact (ih next bound).map ([next] :: ·)
      | _ => exact .const ctx []

theorem steady_resolve (ctx : Context) (id : DescId) (path : Path) :
    Steady ctx fun h => h.resolve ctx id path := by
  unfold resolve
  cases path.fragments with
  | nil => exact .const ctx (⟨[], 0⟩ : Resolution)
  | cons f rest =>
    cases hf : f.step with
    | root =>
      simp only [hf]
      exact (steady_resolveNames ctx Namespace.root rootedSteps rest).map fun items =>
        (⟨[Namespace.root] :: items, (f :: rest).length⟩ : Resolution)
    | _ =>
      simp only [hf]
      exact (steady_resolveFrom ctx id (f :: rest)).map fun items =>
        (⟨items, (f :: rest).length⟩ : Resolution)

theorem steady_ofDesc (ctx : Context) (id : DescId) :
    Steady ctx fun h => ((h.ofDesc ctx id).1.isSome, (h.ofDesc ctx id).2) := by
  refine ⟨fun hc => (hc.ofDesc id).coherent, ?_⟩
  have spec : ∀ {h : Hierarchy}, Coherent ctx h →
      (h.ofDesc ctx id).1.isSome = (viewsOfDesc? ctx id).isSome := by
    intro h hc
    have hanswer := (hc.ofDesc id).answer
    generalize (h.ofDesc ctx id).1 = a at hanswer
    generalize viewsOfDesc? ctx id = b at hanswer
    cases hanswer <;> rfl
  intro h h' hc hc'
  exact (spec hc).trans (spec hc').symm

end Hierarchy
end UILayout
