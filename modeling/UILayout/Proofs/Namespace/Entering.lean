import UILayout.Proofs.Namespace.Anchor

/-!
# UILayout.Proofs.Namespace.Entering

Putting a document in, one element at a time. `Entering.Step` lists what one element can do, so that
what holds of the whole document follows from four cases.

* `Edit.enter_cases`: a document without a bound root changes nothing; all others are entered.
* `Edit.entering_induct`: what every step keeps holds when all elements have been put in.
-/

namespace UILayout
namespace Namespace

open Schema Markup

namespace Contribution

/-- The contribution of a document whose root has not been put in yet. -/
def start (doc : Document) : Contribution := ⟨[], Array.replicate doc.size none⟩

@[simp] theorem place?_start (doc : Document) (id : ElementId) : (start doc).place? id = none := by
  simp only [place?, start, Array.getElem?_replicate]
  split <;> rfl

end Contribution

namespace Entering

@[simp] theorem edit_place (st : Entering) (id : ElementId) (p : Place) :
    (st.place id p).edit = st.edit := rfl

theorem place?_place (st : Entering) (id j : ElementId) (p : Place) :
    (st.place id p).here.place? j =
      if id = j ∧ id < st.here.places.size then some p else st.here.place? j := by
  simp only [place, Contribution.place?, Array.getElem?_setIfInBounds]
  by_cases h : id = j
  · subst h
    by_cases hlt : id < st.here.places.size
    · simp [hlt]
    · simp [hlt]
  · simp [h]

theorem place?_place_cases {st : Entering} {id j : ElementId} {p pl : Place}
    (h : (st.place id p).here.place? j = some pl) : st.here.place? j = some pl ∨ pl = p := by
  rw [place?_place] at h
  split at h
  · exact .inr (Option.some.inj h).symm
  · exact .inl h

/-- The declaration that an element makes. -/
def siteOf (doc : Document) (id : ElementId) (e : Element) : Site :=
  ⟨doc.ref id, e.start, e.binding?.map (·.type)⟩

@[simp] theorem document_siteOf (doc : Document) (id : ElementId) (e : Element) :
    (siteOf doc id e).element.document = doc.id := rfl

theorem edit_enter (st : Entering) (doc : Document) (id : ElementId) (e : Element) (scope : DescId)
    (name : String) (kind : DescKind) :
    (st.enter doc id e scope name kind).edit =
      st.edit.declareChild scope name kind (siteOf doc id e) := rfl

theorem descs_enter (st : Entering) (doc : Document) (id : ElementId) (e : Element) (scope : DescId)
    (name : String) (kind : DescKind) :
    (st.enter doc id e scope name kind).here.descs =
      st.here.descs ++ [st.edit.childOf scope name kind] := rfl

theorem place?_enter (st : Entering) (doc : Document) (id j : ElementId) (e : Element)
    (scope : DescId) (name : String) (kind : DescKind) :
    (st.enter doc id e scope name kind).here.place? j =
      if id = j ∧ id < st.here.places.size then
        some ⟨st.edit.childOf scope name kind, some (st.edit.childOf scope name kind)⟩
      else st.here.place? j := by
  unfold enter
  rw [place?_place]
  rfl

/-- What may be declared where: a file below the root of the namespace, and all else in the desc
around an element that has been put in. -/
def Allows (st : Entering) (scope : DescId) (kind : DescKind) : Prop :=
  (scope = Namespace.root ∧ kind = .file) ∨
    (∃ id pl, st.here.place? id = some pl ∧ pl.scope = scope) ∧ kind ≠ .root ∧ kind ≠ .file

/-- What one element of a document can do. -/
inductive Step (doc : Document) : Entering → Entering → Prop where
  | declare {st : Entering} {id : ElementId} {e : Element} {scope : DescId} {kind : DescKind}
      (he : doc.element? id = some e) (name : String) (allowed : st.Allows scope kind) :
      Step doc st (st.enter doc id e scope name kind)
  | constant {st : Entering} {parent id : ElementId} {pl : Place} {c : Constant}
      (hpl : st.here.place? parent = some pl) (hc : c.site = doc.ref id) :
      Step doc st ({ st with edit := st.edit.addConstant c }.place id ⟨pl.scope, none⟩)
  | handle {st : Entering} {parent id : ElementId} {pl : Place}
      (hpl : st.here.place? parent = some pl) (name : String) :
      Step doc st
        ({ st with edit := st.edit.addHandle ⟨name, pl.scope, doc.ref id⟩ }.place id ⟨pl.scope, none⟩)
  | other {st : Entering} {parent id : ElementId} {pl : Place}
      (hpl : st.here.place? parent = some pl) : Step doc st (st.place id ⟨pl.scope, none⟩)

end Entering

theorem Role.ofSlot?_of_desc {s : Schema} {e : Element} {b : Binding} {name : String}
    {kind : DescKind} (h : Role.ofElement s e b = .desc name kind) :
    DescKind.ofSlot? (s.slotKind b.slot) = some kind := by
  unfold Role.ofElement at h
  cases hs : DescKind.ofSlot? (s.slotKind b.slot) with
  | none =>
    simp only [hs] at h
    repeat' split at h
    all_goals cases h
  | some k =>
    cases hn : e.name? with
    | none => simp [hs, hn] at h
    | some x =>
      simp only [hs, hn] at h
      split at h <;> cases h
      rfl

theorem Role.kind_of_desc {s : Schema} {e : Element} {b : Binding} {name : String} {kind : DescKind}
    (h : Role.ofElement s e b = .desc name kind) : kind ≠ .root ∧ kind ≠ .file := by
  have hslot := Role.ofSlot?_of_desc h
  cases hk : s.slotKind b.slot <;> rw [hk] at hslot <;> cases hslot <;> simp

theorem Entering.step_cases (s : Schema) (doc : Document) (st : Entering) (id : ElementId) :
    st.step s doc id = st ∨ Step doc st (st.step s doc id) := by
  unfold Entering.step
  split
  · exact .inl rfl
  · rename_i e he
    split
    · rename_i b p hb hp
      obtain ⟨parent, -, hpl⟩ := Option.bind_eq_some_iff.1 hp
      right
      unfold Entering.add
      split
      · rename_i name kind hrole
        obtain ⟨hk, hf⟩ := Role.kind_of_desc hrole
        exact .declare he name (.inr ⟨⟨parent, p, hpl, rfl⟩, hk, hf⟩)
      · exact .constant hpl rfl
      · exact .handle hpl _
      · exact .other hpl
    · exact .inl rfl

namespace Edit

/-- All elements of a document put in, from its root on. -/
def entering (s : Schema) (doc : Document) (e : Edit) (root : ElementId) (el : Element) : Entering :=
  let start : Entering := ⟨e, .start doc⟩
  (doc.subtree root).tail.foldl (Entering.step s doc)
    (start.enter doc root el Namespace.root doc.name .file)

/-- Files what a document has put in. -/
def file (doc : Document) (st : Entering) : Edit :=
  { st.edit with names := { st.edit.names with
      documents := st.edit.names.documents.put doc.id st.here } }

theorem enter_cases (s : Schema) (doc : Document) (e : Edit) :
    ((∀ root el, doc.root? = some root → doc.element? root = some el → el.binding? = none) ∧
      e.enter s doc = e) ∨
    ∃ root el, doc.root? = some root ∧ doc.element? root = some el ∧ el.binding?.isSome = true ∧
      e.enter s doc = file doc (e.entering s doc root el) := by
  unfold enter
  split
  · rename_i h
    refine .inl ⟨fun root el hr => ?_, rfl⟩
    rw [h] at hr
    cases hr
  · rename_i root hroot
    split
    · rename_i h
      refine .inl ⟨fun root' el hr he => ?_, rfl⟩
      rw [hroot] at hr
      cases hr
      rw [h] at he
      cases he
    · rename_i el hel
      split
      · rename_i hb
        exact .inr ⟨root, el, hroot, hel, hb, rfl⟩
      · rename_i hb
        refine .inl ⟨fun root' el' hr he => ?_, rfl⟩
        rw [hroot] at hr
        cases hr
        rw [hel] at he
        cases he
        simpa using hb

theorem foldl_step {P : Entering → Prop} {s : Schema} {doc : Document}
    (step : ∀ st st', P st → Entering.Step doc st st' → P st') (elements : List ElementId)
    {st : Entering} (h : P st) : P (elements.foldl (Entering.step s doc) st) := by
  induction elements generalizing st with
  | nil => exact h
  | cons id rest ih =>
    rw [List.foldl_cons]
    apply ih
    rcases Entering.step_cases s doc st id with heq | hstep
    · rw [heq]
      exact h
    · exact step _ _ h hstep

theorem entering_induct {P : Entering → Prop} {s : Schema} {doc : Document} {e : Edit}
    {root : ElementId} {el : Element} (hel : doc.element? root = some el) (start : P ⟨e, .start doc⟩)
    (step : ∀ st st', P st → Entering.Step doc st st' → P st') : P (e.entering s doc root el) :=
  foldl_step step _ (step _ _ start (.declare hel doc.name (.inl ⟨rfl, rfl⟩)))

end Edit
end Namespace
end UILayout
