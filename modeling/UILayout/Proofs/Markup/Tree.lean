import Mathlib.Logic.Relation
import UILayout.Proofs.Markup.Nested
import UILayout.Proofs.Schema.Bound

/-!
# UILayout.Proofs.Markup.Tree

Documents are built by adding elements. Whatever is added where, every element but those without a
parent is listed by its parent and by no other element, once, behind the children that were there
before. So a walk down from the root comes to every element at most once.

* `Document.Built`: how documents come to be.
* `Document.tree_of_built`: what their elements make.
* `Document.mem_descendants_iff`, `Document.Tree.nodup_descendants`: where a walk comes to, and how
  often.
-/

namespace UILayout
namespace Markup
namespace Document

/-- A document to which elements have been added one after the other, each without a parent or below
one that is there, and whose elements have been changed in all but their places. -/
inductive Built : Document → Prop where
  | empty (id : DocumentId) (path : String) : Built (.empty id path)
  | push {doc : Document} {parent? : Option ElementId} {e : Element} (h : Built doc)
      (hparent : ∀ parent, parent? = some parent → parent < doc.size) (he : e.children = []) :
      Built (doc.push parent? e).1
  | modify {doc : Document} {id : ElementId} {f : Element → Element} (h : Built doc)
      (hchildren : ∀ e, (f e).children = e.children) (hparent : ∀ e, (f e).parent? = e.parent?) :
      Built (doc.modify id f)

/-- An element lists another one as its child. -/
def Child (doc : Document) (parent child : ElementId) : Prop :=
  ∃ e, doc.element? parent = some e ∧ child ∈ e.children

def parent? (doc : Document) (id : ElementId) : Option ElementId :=
  (doc.element? id).bind (·.parent?)

/-- The elements are nested, and listed by their parents only. -/
structure Tree (doc : Document) : Prop extends Nested doc where
  child_iff : ∀ parent child, doc.Child parent child ↔ doc.parent? child = some parent
  ascending : ∀ {id : ElementId} {e : Element}, doc.element? id = some e → e.children.Pairwise (· < ·)
  rootless : ∀ root, doc.root? = some root → doc.parent? root = none

/-! ## Building -/

theorem parent?_push (doc : Document) (parent? : Option ElementId) (e : Element) (j : ElementId) :
    (doc.push parent? e).1.parent? j = if j = doc.size then parent? else doc.parent? j := by
  have hput : ∀ old : Element, (if parent? = some j then
      { old with children := old.children ++ [doc.size] } else old).parent? = old.parent? := by
    intro old
    split <;> rfl
  unfold Document.parent?
  rw [element?_push, Option.bind_map]
  by_cases hj : j = doc.size
  · rw [if_pos hj, if_pos hj]
    exact hput _
  · rw [if_neg hj, if_neg hj]
    exact congrArg (Option.bind _) (funext hput)

theorem element?_eq_none_iff {doc : Document} {j : ElementId} : doc.element? j = none ↔ doc.size ≤ j :=
  Array.getElem?_eq_none_iff

/-- The elements of two documents have the same places. -/
def SamePlaces (doc doc' : Document) : Prop :=
  ∀ j, (doc.element? j).map (fun e => (e.children, e.parent?)) =
    (doc'.element? j).map fun e => (e.children, e.parent?)

theorem SamePlaces.parent?_eq {doc doc' : Document} (h : doc.SamePlaces doc') (j : ElementId) :
    doc.parent? j = doc'.parent? j := by
  have hj := congrArg (Option.bind · Prod.snd) (h j)
  rwa [Option.bind_map, Option.bind_map] at hj

theorem samePlaces_modify (doc : Document) (id : ElementId) {f : Element → Element}
    (hchildren : ∀ e, (f e).children = e.children) (hparent : ∀ e, (f e).parent? = e.parent?) :
    (doc.modify id f).SamePlaces doc := by
  intro j
  rw [element?_modify, Option.map_map]
  refine congrArg (Option.map · _) (funext fun e => ?_)
  dsimp only [Function.comp_apply]
  split
  · rw [hchildren, hparent]
  · rfl

theorem samePlaces_bind (s : Schema) (doc : Document) : (s.bind doc).SamePlaces doc := by
  intro j
  rw [Schema.element?_bind, Option.map_map]
  rfl

namespace Tree

variable {doc : Document}

theorem parent_lt (h : doc.Tree) {parent child : ElementId} (hchild : doc.parent? child = some parent) :
    parent < child := by
  obtain ⟨e, he, hmem⟩ := (h.child_iff parent child).2 hchild
  exact (h.children he child hmem).1

theorem empty (id : DocumentId) (path : String) : (Document.empty id path).Tree := by
  refine ⟨.empty id path, fun parent child => ?_, fun he => ?_, nofun⟩
  · constructor
    · rintro ⟨e, he, -⟩
      simp [element?, Document.empty] at he
    · intro h
      simp [Document.parent?, element?, Document.empty] at h
  · simp [element?, Document.empty] at he

/-- The children of an element after one was pushed. -/
theorem children_push (h : doc.Tree) {parent? : Option ElementId} {e : Element} (he : e.children = [])
    {j : ElementId} {e' : Element} (he' : (doc.push parent? e).1.element? j = some e') :
    ∃ old : List ElementId, (∀ child, child ∈ old ↔ doc.Child j child) ∧ old.Pairwise (· < ·) ∧
      (∀ child ∈ old, child < doc.size) ∧
      e'.children = if parent? = some j then old ++ [doc.size] else old := by
  rw [element?_push] at he'
  obtain ⟨before, hbefore, rfl⟩ := Option.map_eq_some_iff.1 he'
  refine ⟨before.children, ?_⟩
  split at hbefore
  · rename_i hj
    cases hbefore
    have hnone : doc.element? j = none := by
      rw [hj]
      exact Array.getElem?_eq_none (Nat.le_refl _)
    refine ⟨fun child => ?_, ?_, ?_, ?_⟩
    · simp [he, Child, hnone]
    · simp [he]
    · simp [he]
    · split <;> rfl
  · refine ⟨fun child => ?_, h.ascending hbefore, fun child hchild => (h.children hbefore child hchild).2,
      ?_⟩
    · simp [Child, hbefore]
    · split <;> rfl

theorem push (h : doc.Tree) {parent? : Option ElementId} {e : Element}
    (hparent : ∀ parent, parent? = some parent → parent < doc.size) (he : e.children = []) :
    (doc.push parent? e).1.Tree := by
  refine ⟨h.toNested.push hparent he, fun parent child => ?_, fun {j e'} he' => ?_, fun root hroot => ?_⟩
  · rw [parent?_push]
    constructor
    · rintro ⟨e', he', hchild⟩
      obtain ⟨old, hold, -, hlt, hchildren⟩ := h.children_push he he'
      have hkept : child ∈ old →
          (if child = doc.size then parent? else doc.parent? child) = some parent := by
        intro hmem
        rw [if_neg (Nat.ne_of_lt (hlt child hmem))]
        exact (h.child_iff parent child).1 ((hold child).1 hmem)
      rw [hchildren] at hchild
      split at hchild
      · rename_i hat
        rcases List.mem_append.1 hchild with hmem | hmem
        · exact hkept hmem
        · rw [List.mem_singleton.1 hmem, if_pos rfl, hat]
      · exact hkept hchild
    · intro hchild
      have hsize : parent < (doc.push parent? e).1.size := by
        rw [size_push]
        split at hchild
        · exact Nat.lt_succ_of_lt (hparent parent hchild)
        · obtain ⟨_, he', -⟩ := (h.child_iff parent child).2 hchild
          exact Nat.lt_succ_of_lt (lt_size_of_element? he')
      have he' : (doc.push parent? e).1.element? parent = some (doc.push parent? e).1.elements[parent] :=
        Array.getElem?_eq_getElem hsize
      obtain ⟨old, hold, -, -, hchildren⟩ := h.children_push he he'
      refine ⟨_, he', hchildren ▸ ?_⟩
      split at hchild
      · rename_i hnew
        rw [if_pos hchild, hnew]
        exact List.mem_append_right _ (List.mem_singleton_self _)
      · have hmem := (hold child).2 ((h.child_iff parent child).2 hchild)
        split
        · exact List.mem_append_left _ hmem
        · exact hmem
  · obtain ⟨old, -, hascending, hlt, hchildren⟩ := h.children_push he he'
    rw [hchildren]
    split
    · refine List.pairwise_append.2 ⟨hascending, List.pairwise_singleton _ _, fun a ha b hb => ?_⟩
      rw [List.mem_singleton.1 hb]
      exact hlt a ha
    · exact hascending
  · rw [parent?_push]
    have hkept : doc.root? = some root → (if root = doc.size then parent? else doc.parent? root) = none := by
      intro hold
      rw [if_neg (Nat.ne_of_lt (h.root root hold))]
      exact h.rootless root hold
    cases parent? with
    | some parent => exact hkept hroot
    | none =>
      split
      · rfl
      · rename_i hne
        refine (if_neg hne).symm.trans (hkept ?_)
        rcases root?_push doc none e with hold | hnew
        · rw [← hold, hroot]
        · rw [hroot] at hnew
          exact absurd (Option.some.inj hnew) hne

/-- A document with the same places for its elements is the same tree. -/
theorem of_places {doc' : Document} (h : doc.Tree) (hroot : doc'.root? = doc.root?)
    (hplaces : doc'.SamePlaces doc) : doc'.Tree := by
  have hplace : ∀ {j e'}, doc'.element? j = some e' →
      ∃ e, doc.element? j = some e ∧ e'.children = e.children ∧ e'.parent? = e.parent? := by
    intro j e' he'
    have hj := hplaces j
    rw [he', Option.map_some] at hj
    obtain ⟨e, he, heq⟩ := Option.map_eq_some_iff.1 hj.symm
    obtain ⟨hchildren, hparent⟩ := Prod.mk.inj heq
    exact ⟨e, he, hchildren.symm, hparent.symm⟩
  have hnone : ∀ j, doc'.size ≤ j ↔ doc.size ≤ j := by
    intro j
    rw [← element?_eq_none_iff, ← element?_eq_none_iff, ← Option.map_eq_none_iff, hplaces j,
      Option.map_eq_none_iff]
  have hsize : doc'.size = doc.size :=
    Nat.le_antisymm ((hnone _).2 (Nat.le_refl _)) ((hnone _).1 (Nat.le_refl _))
  have hparent := hplaces.parent?_eq
  have hchild : ∀ parent child, doc'.Child parent child ↔ doc.Child parent child := by
    intro parent child
    have hj := hplaces parent
    unfold Child
    cases he : doc.element? parent <;> cases he' : doc'.element? parent <;> simp_all
  refine ⟨⟨fun root hr => ?_, fun he' child hmem => ?_⟩, fun parent child => ?_, fun he' => ?_,
    fun root hr => ?_⟩
  · rw [hsize]
    exact h.root root (hroot ▸ hr)
  · obtain ⟨e, he, hchildren, -⟩ := hplace he'
    rw [hsize]
    exact h.children he child (hchildren ▸ hmem)
  · rw [hchild, hparent]
    exact h.child_iff parent child
  · obtain ⟨e, he, hchildren, -⟩ := hplace he'
    rw [hchildren]
    exact h.ascending he
  · rw [hparent]
    exact h.rootless root (hroot ▸ hr)

theorem modify (h : doc.Tree) (id : ElementId) {f : Element → Element}
    (hchildren : ∀ e, (f e).children = e.children) (hparent : ∀ e, (f e).parent? = e.parent?) :
    (doc.modify id f).Tree :=
  h.of_places rfl (samePlaces_modify doc id hchildren hparent)

theorem bind (h : doc.Tree) (s : Schema) : (s.bind doc).Tree := h.of_places rfl (samePlaces_bind s doc)

end Tree

theorem tree_of_built {doc : Document} (h : doc.Built) : doc.Tree := by
  induction h with
  | empty id path => exact .empty id path
  | push _ hparent he ih => exact ih.push hparent he
  | modify _ hchildren hparent ih => exact ih.modify _ hchildren hparent

/-! ## Reading -/

open Reader in
/-- A start tag adds a child to the innermost open element. -/
theorem built_step {text : List Char} {st next : State} {start : Nat} {found : Cut}
    (h : Steps text start found st next) (hst : st.document.Built)
    (hopen : ∀ id ∈ st.openElements.map (·.1), id < st.document.size) :
    next.document.Built ∧ ∀ id ∈ next.openElements.map (·.1), id < next.document.size := by
  have hparent : ∀ parent, st.openElements.head?.map (·.1) = some parent →
      parent < st.document.size := by
    intro parent hparent
    obtain ⟨o, ho, rfl⟩ := Option.map_eq_some_iff.1 hparent
    exact hopen _ (List.mem_map_of_mem (List.mem_of_head? ho))
  cases h with
  | @empty _ e _ he =>
    obtain ⟨-, -, -, -, hchildren⟩ := StartTag.element_spec he
    refine ⟨hst.push hparent (e := { e with stop := found.stop, closed := true }) hchildren,
      fun id hid => ?_⟩
    rw [size_push]
    exact Nat.lt_succ_of_lt (hopen id hid)
  | opening _ he =>
    obtain ⟨-, -, -, -, hchildren⟩ := StartTag.element_spec he
    refine ⟨hst.push hparent hchildren, fun id hid => ?_⟩
    rw [size_push]
    rcases List.mem_cons.1 hid with rfl | hid
    · exact Nat.lt_succ_self _
    · exact Nat.lt_succ_of_lt (hopen id hid)
  | closing houter =>
    refine ⟨hst.modify (fun _ => rfl) fun _ => rfl, fun j hj => ?_⟩
    rw [size_modify]
    exact hopen j (by simp [houter, hj])
  | passed => exact ⟨hst, hopen⟩

theorem built_ofText {id : DocumentId} {path : String} {text : List Char} {doc : Document}
    (h : ofText id path text = .ok doc) : doc.Built := by
  obtain ⟨st, hst, rfl⟩ := exists_of_ofText h
  have hread : st.document.Built ∧ ∀ id ∈ st.openElements.map (·.1), id < st.document.size := by
    refine @Reader.loop_induct text _ (fun _ st => st.document.Built ∧
      ∀ id ∈ st.openElements.map (·.1), id < st.document.size) ?_ ?_ _ _ [] _ rfl hst
      ⟨.empty id path, nofun⟩
    · exact fun _ hst => hst
    · intro st next before cs mid found _ _ hstep hst
      exact built_step (Reader.steps_of_step hstep) hst.1 hst.2
  replace hread := hread.1
  clear hst
  generalize st.document = doc at hread
  induction st.openElements generalizing doc with
  | nil => exact hread
  | cons element rest ih => exact ih _ (hread.modify (fun _ => rfl) fun _ => rfl)

/-- The elements of a document that has been read are nested. -/
theorem nested_ofText {id : DocumentId} {path : String} {text : List Char} {doc : Document}
    (h : ofText id path text = .ok doc) : doc.Nested := (tree_of_built (built_ofText h)).toNested

/-! ## Walking down -/

/-- An element is another one, or around it. -/
abbrev Above (doc : Document) : ElementId → ElementId → Prop := Relation.ReflTransGen doc.Child

/-- An element of the tree below the root. -/
def Reached (doc : Document) (id : ElementId) : Prop := ∃ root, doc.root? = some root ∧ doc.Above root id

namespace Nested

variable {doc : Document}

theorem mem_below_iff (h : doc.Nested) {id child : ElementId} :
    child ∈ doc.below id ↔ doc.Child id child := by
  cases he : doc.element? id with
  | none => simp [below, Child, he]
  | some e => simp [h.below_eq he, Child, he]

/-- A walk comes to all that an element is above. -/
theorem mem_subtree_iff (h : doc.Nested) {id j : ElementId} : j ∈ doc.subtree id ↔ doc.Above id j := by
  induction id using subtree.induct doc with
  | case1 id ih =>
    rw [subtree_eq_flatMap, List.mem_cons, List.mem_flatMap, Above, Relation.ReflTransGen.cases_head_iff]
    refine or_congr eq_comm (exists_congr fun child => ?_)
    rw [h.mem_below_iff]
    exact and_congr_right fun hchild => ih child (h.mem_below_iff.2 hchild)

theorem mem_descendants_iff (h : doc.Nested) {id : ElementId} : id ∈ doc.descendants ↔ doc.Reached id := by
  unfold descendants Reached
  cases doc.root? with
  | none => simp
  | some root => simpa using h.mem_subtree_iff

theorem le_of_above (h : doc.Nested) {i j : ElementId} (hij : doc.Above i j) : i ≤ j := by
  induction hij with
  | refl => exact Nat.le_refl i
  | tail _ hchild ih =>
    obtain ⟨e, he, hmem⟩ := hchild
    exact Nat.le_trans ih (Nat.le_of_lt (h.children he _ hmem).1)

end Nested

namespace Tree

variable {doc : Document}

theorem child_unique (h : doc.Tree) {p q child : ElementId} (hp : doc.Child p child)
    (hq : doc.Child q child) : p = q := by
  rw [h.child_iff] at hp hq
  exact Option.some.inj (hp.symm.trans hq)

/-- Of two elements above a third, one is above the other. -/
theorem above_total (h : doc.Tree) {i j k : ElementId} (hi : doc.Above i k) (hj : doc.Above j k) :
    doc.Above i j ∨ doc.Above j i := by
  rw [Above, ← Relation.reflTransGen_swap] at hi hj
  have hunique : Relator.RightUnique (Function.swap doc.Child) := fun _ _ _ hp hq => h.child_unique hp hq
  rcases Relation.ReflTransGen.total_of_right_unique hunique hi hj with hij | hji
  · exact .inr (Relation.reflTransGen_swap.1 hij)
  · exact .inl (Relation.reflTransGen_swap.1 hji)

theorem ancestors_eq (h : doc.Tree) {parent child : ElementId}
    (hchild : doc.parent? child = some parent) :
    doc.ancestors child = parent :: doc.ancestors parent := by
  rw [ancestors, show (doc.element? child).bind (·.parent?) = some parent from hchild]
  exact if_pos (h.parent_lt hchild)

/-- What is above a child and not the child itself is above its parent. -/
theorem above_parent (h : doc.Tree) {i parent child : ElementId} (hi : doc.Above i child)
    (hne : i ≠ child) (hchild : doc.Child parent child) : doc.Above i parent := by
  rcases Relation.ReflTransGen.cases_tail_iff _ _ _ |>.1 hi with heq | ⟨p, hip, hp⟩
  · exact absurd heq.symm hne
  · rwa [h.child_unique hchild hp]

/-- No element is in the trees of two children. -/
theorem siblings_apart (h : doc.Tree) {parent c c' j : ElementId} (hc : doc.Child parent c)
    (hc' : doc.Child parent c') (hne : c ≠ c') (hj : doc.Above c j) : ¬ doc.Above c' j := by
  have hup : ∀ {a b : ElementId}, doc.Child parent a → doc.Child parent b → a ≠ b →
      ¬ doc.Above a b := by
    intro a b ha hb hab habove
    have hlt := h.parent_lt ((h.child_iff _ _).1 ha)
    exact absurd (h.le_of_above (h.above_parent habove hab hb)) (Nat.not_le.2 hlt)
  intro hj'
  rcases h.above_total hj hj' with habove | habove
  · exact hup hc hc' hne habove
  · exact hup hc' hc hne.symm habove

theorem ascending_below (h : doc.Tree) (id : ElementId) : (doc.below id).Pairwise (· < ·) := by
  cases he : doc.element? id with
  | none => simp [below, he]
  | some e =>
    rw [h.below_eq he]
    exact h.ascending he

theorem nodup_subtree (h : doc.Tree) (id : ElementId) : (doc.subtree id).Nodup := by
  induction id using subtree.induct doc with
  | case1 id ih =>
    rw [subtree_eq_flatMap, List.nodup_cons, List.nodup_flatMap]
    refine ⟨fun hmem => ?_, ih, ?_⟩
    · obtain ⟨child, hchild, hid⟩ := List.mem_flatMap.1 hmem
      exact absurd (h.le_of_above (h.mem_subtree_iff.1 hid)) (Nat.not_le.2 (below_lt hchild).1)
    · refine (h.ascending_below id).imp_of_mem fun {c c'} hc hc' hlt j hj hj' => ?_
      exact h.siblings_apart (h.mem_below_iff.1 hc) (h.mem_below_iff.1 hc') (Nat.ne_of_lt hlt)
        (h.mem_subtree_iff.1 hj) (h.mem_subtree_iff.1 hj')

theorem nodup_descendants (h : doc.Tree) : doc.descendants.Nodup := by
  unfold descendants
  cases doc.root? with
  | none => exact List.nodup_nil
  | some root => exact h.nodup_subtree root

/-- A walk comes to no element before its parent. -/
theorem parents_first (h : doc.Tree) (id : ElementId) :
    (doc.subtree id).Pairwise fun a b => doc.parent? a ≠ some b := by
  induction id using subtree.induct doc with
  | case1 id ih =>
    rw [subtree_eq_flatMap, List.pairwise_cons, List.pairwise_flatMap]
    refine ⟨fun b hb hparent => ?_, ih, ?_⟩
    · obtain ⟨child, hchild, hb⟩ := List.mem_flatMap.1 hb
      have hlt : id < b := Nat.lt_of_lt_of_le (below_lt hchild).1 (h.le_of_above (h.mem_subtree_iff.1 hb))
      exact Nat.lt_asymm hlt (h.parent_lt hparent)
    · refine (h.ascending_below id).imp_of_mem fun {c c'} hc hc' hlt a ha b hb hparent => ?_
      have habove := (h.mem_subtree_iff.1 hb).tail ((h.child_iff b a).2 hparent)
      exact h.siblings_apart (h.mem_below_iff.1 hc) (h.mem_below_iff.1 hc') (Nat.ne_of_lt hlt)
        (h.mem_subtree_iff.1 ha) habove

/-- An element that a walk comes to has its parent there, unless it is the root. -/
theorem exists_parent (h : doc.Tree) {id : ElementId} (hid : id ∈ doc.descendants)
    (hne : doc.root? ≠ some id) : ∃ p ∈ doc.descendants, doc.parent? id = some p := by
  obtain ⟨root, hroot, habove⟩ := h.mem_descendants_iff.1 hid
  rcases Relation.ReflTransGen.cases_tail_iff _ _ _ |>.1 habove with rfl | ⟨p, hp, hchild⟩
  · exact absurd hroot hne
  · exact ⟨p, h.mem_descendants_iff.2 ⟨root, hroot, hp⟩, (h.child_iff p id).1 hchild⟩

end Tree

theorem innermost_of_find? {doc : Document} {offset : Nat} {id child : ElementId}
    (h : (doc.below id).find? (doc.touches offset) = some child) :
    doc.innermost offset id = doc.innermost offset child := by
  rw [innermost]
  split <;> simp_all

theorem innermost_of_none {doc : Document} {offset : Nat} {id : ElementId}
    (h : (doc.below id).find? (doc.touches offset) = none) : doc.innermost offset id = id := by
  rw [innermost]
  split <;> simp_all

theorem innermost_mem_subtree (doc : Document) (offset : Nat) (id : ElementId) :
    doc.innermost offset id ∈ doc.subtree id := by
  induction id using innermost.induct doc offset with
  | case1 id child hfound ih =>
    rw [innermost_of_find? hfound, subtree_eq_flatMap]
    exact List.mem_cons_of_mem _ (List.mem_flatMap.2 ⟨child, List.mem_of_find?_eq_some hfound, ih⟩)
  | case2 id hnone =>
    rw [innermost_of_none hnone, subtree_eq_flatMap]
    exact List.mem_cons_self

/-- The element at an offset is one that a walk comes to. -/
theorem mem_descendants_of_elementAt? {doc : Document} {offset : Nat} {id : ElementId}
    (h : doc.elementAt? offset = some id) : id ∈ doc.descendants := by
  obtain ⟨root, hroot, rfl⟩ := Option.map_eq_some_iff.1 h
  rw [descendants, (Option.filter_eq_some_iff.1 hroot).1]
  exact innermost_mem_subtree doc offset root

end Document
end Markup
end UILayout
