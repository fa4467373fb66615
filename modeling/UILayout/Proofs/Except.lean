import Mathlib.Data.List.Forall2

/-!
# UILayout.Proofs.Except

Computations that end with a result or with a fault. A computation in several steps has a result when all
of its steps have one; a fault ends it, so it tells which step has failed, and that all before went well.

* `exists_of_bind_eq_ok`, `forall₂_of_mapM`, `foldlM_induct`: what a result says about the steps.
* `of_bind_eq_error`, `of_foldlM_eq_error`: where a fault comes from.
-/

namespace UILayout

variable {ε α β : Type}

theorem ok_of_toOption {r : Except ε α} {a : α} (h : r.toOption = some a) : r = .ok a := by
  cases r with
  | error failure => cases h
  | ok b =>
    cases h
    rfl

theorem exists_of_map_eq_ok {f : α → β} {x : Except ε α} {b : β}
    (h : x.map f = .ok b) : ∃ a, x = .ok a ∧ f a = b := by
  cases x with
  | error e => cases h
  | ok a => exact ⟨a, rfl, Except.ok.inj h⟩

theorem of_map_eq_error {f : α → β} {x : Except ε α} {fault : ε} (h : x.map f = .error fault) :
    x = .error fault := by
  cases x with
  | error e =>
    cases h
    rfl
  | ok a => cases h

theorem exists_of_bind_eq_ok {x : Except ε α} {f : α → Except ε β} {b : β} (h : x >>= f = .ok b) :
    ∃ a, x = .ok a ∧ f a = .ok b := by
  cases x with
  | error fault => cases h
  | ok a => exact ⟨a, rfl, h⟩

/-- A step that has a result, and a step after it that has one whatever that result is. -/
theorem exists_bind_eq_ok {x : Except ε α} {f : α → Except ε β} (hx : ∃ a, x = .ok a)
    (hf : ∀ a, ∃ b, f a = .ok b) : ∃ b, x >>= f = .ok b := by
  obtain ⟨a, rfl⟩ := hx
  exact hf a

theorem of_bind_eq_error {x : Except ε α} {f : α → Except ε β} {fault : ε} (h : x >>= f = .error fault) :
    x = .error fault ∨ ∃ a, x = .ok a ∧ f a = .error fault := by
  cases x with
  | error e =>
    cases h
    exact .inl rfl
  | ok a => exact .inr ⟨a, rfl, h⟩

/-! ## One result for every element -/

theorem forall₂_of_mapM {f : α → Except ε β} {as : List α} {bs : List β} (h : as.mapM f = .ok bs) :
    List.Forall₂ (fun a b => f a = .ok b) as bs := by
  induction as generalizing bs with
  | nil =>
    cases h
    exact .nil
  | cons a as ih =>
    rw [List.mapM_cons] at h
    obtain ⟨b, hb, h⟩ := exists_of_bind_eq_ok h
    obtain ⟨rest, hrest, h⟩ := exists_of_bind_eq_ok h
    cases h
    exact .cons hb (ih hrest)

theorem exists_getElem?_of_forall₂ {R : α → β → Prop} {as : List α} {bs : List β}
    (h : List.Forall₂ R as bs) {i : Nat} {a : α} (ha : as[i]? = some a) : ∃ b, bs[i]? = some b ∧ R a b := by
  obtain ⟨hi, rfl⟩ := List.getElem?_eq_some_iff.1 ha
  have hi' : i < bs.length := h.length_eq ▸ hi
  exact ⟨bs[i], List.getElem?_eq_getElem hi', h.get hi hi'⟩

theorem exists_mem_of_mapM {f : α → Except ε β} {as : List α} {bs : List β} (h : as.mapM f = .ok bs)
    {a : α} (ha : a ∈ as) : ∃ b ∈ bs, f a = .ok b := by
  obtain ⟨i, hi⟩ := List.mem_iff_getElem?.1 ha
  obtain ⟨b, hb, hf⟩ := exists_getElem?_of_forall₂ (forall₂_of_mapM h) hi
  exact ⟨b, List.mem_of_getElem? hb, hf⟩

theorem mapM_spec {f : α → Except ε β} {as : List α} {bs : List β} (h : as.mapM f = .ok bs) :
    bs.length = as.length ∧ ∀ b ∈ bs, ∃ a ∈ as, f a = .ok b := by
  have hall := forall₂_of_mapM h
  refine ⟨hall.length_eq.symm, fun b hb => ?_⟩
  obtain ⟨i, hi⟩ := List.mem_iff_getElem?.1 hb
  obtain ⟨a, ha, hf⟩ := exists_getElem?_of_forall₂ hall.flip hi
  exact ⟨a, List.mem_of_getElem? ha, hf⟩

theorem of_mapM_eq_error {f : α → Except ε β} {as : List α} {fault : ε} (h : as.mapM f = .error fault) :
    ∃ a ∈ as, f a = .error fault := by
  induction as with
  | nil => cases h
  | cons a rest ih =>
    rw [List.mapM_cons] at h
    rcases of_bind_eq_error h with hfault | ⟨b, -, h⟩
    · exact ⟨a, List.mem_cons_self, hfault⟩
    · rcases of_bind_eq_error h with hfault | ⟨bs, -, h⟩
      · obtain ⟨a', ha', hfault⟩ := ih hfault
        exact ⟨a', List.mem_cons_of_mem a ha', hfault⟩
      · cases h

theorem exists_mapM_iff {f : α → Except ε β} {as : List α} :
    (∃ bs, as.mapM f = .ok bs) ↔ ∀ a ∈ as, ∃ b, f a = .ok b := by
  constructor
  · rintro ⟨bs, h⟩ a ha
    obtain ⟨b, -, hb⟩ := exists_mem_of_mapM h ha
    exact ⟨b, hb⟩
  · intro hall
    cases h : as.mapM f with
    | ok bs => exact ⟨bs, rfl⟩
    | error fault =>
      obtain ⟨a, ha, hfault⟩ := of_mapM_eq_error h
      obtain ⟨b, hb⟩ := hall a ha
      cases hfault.symm.trans hb

/-! ## One step for every element -/

/-- What holds at the start and is kept by every step, given the elements passed so far, holds at the
end. -/
theorem foldlM_induct {f : β → α → Except ε β} {as : List α} {P : List α → β → Prop} {b b' : β}
    (h : as.foldlM f b = .ok b') (start : P [] b)
    (step : ∀ passed a b b', P passed b → f b a = .ok b' → P (passed ++ [a]) b') : P as b' := by
  have hrun : ∀ (rest passed : List α) (b : β), P passed b → rest.foldlM f b = .ok b' →
      P (passed ++ rest) b' := by
    intro rest
    induction rest with
    | nil =>
      intro passed b hb h
      cases h
      rwa [List.append_nil]
    | cons a rest ih =>
      intro passed b hb h
      rw [List.foldlM_cons] at h
      obtain ⟨mid, hmid, h⟩ := exists_of_bind_eq_ok h
      have := ih (passed ++ [a]) mid (step passed a b mid hb hmid) h
      rwa [List.append_assoc] at this
  exact hrun as [] b start h

/-- A run that ends with a fault has done some steps, which went well, and then one that did not. -/
theorem of_foldlM_eq_error {f : β → α → Except ε β} {as : List α} {b : β} {fault : ε}
    (h : as.foldlM f b = .error fault) :
    ∃ before a after b', as = before ++ a :: after ∧ before.foldlM f b = .ok b' ∧
      f b' a = .error fault := by
  induction as generalizing b with
  | nil => cases h
  | cons a rest ih =>
    rw [List.foldlM_cons] at h
    rcases of_bind_eq_error h with hfault | ⟨mid, hmid, hrest⟩
    · exact ⟨[], a, rest, b, rfl, rfl, hfault⟩
    · obtain ⟨before, a', after, b', rfl, hbefore, hfault⟩ := ih hrest
      refine ⟨a :: before, a', after, b', rfl, ?_, hfault⟩
      rw [List.foldlM_cons, hmid]
      exact hbefore

end UILayout
