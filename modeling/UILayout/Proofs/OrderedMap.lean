import Mathlib.Data.List.Nodup
import UILayout.OrderedMap

/-!
# UILayout.Proofs.OrderedMap

What is read from an ordered map after each way of changing it. A map whose keys are distinct is
determined by what is read from it, up to order; every operation keeps keys distinct.

* `mem_values_iff`: with distinct keys, the values are what is read.
-/

namespace UILayout
namespace OrderedMap

variable {κ α β : Type}

@[simp] theorem keys_empty : (empty : OrderedMap κ α).keys = [] := rfl

theorem keys_map (f : α → β) (m : OrderedMap κ α) : (m.map f).keys = m.keys := by
  simp [keys, map]

theorem nodup_keys_filterMap {m : OrderedMap κ α} (f : κ → α → Option β) (h : m.keys.Nodup) :
    (m.filterMap f).keys.Nodup := by
  obtain ⟨entries⟩ := m
  simp only [keys, filterMap] at h ⊢
  induction entries with
  | nil => simp
  | cons e rest ih =>
    simp only [List.map_cons, List.nodup_cons] at h
    rw [List.filterMap_cons]
    cases hf : f e.1 e.2 with
    | none => simpa [hf] using ih h.2
    | some v =>
      simp only [Option.map_some, List.map_cons, List.nodup_cons]
      refine ⟨fun hmem => h.1 ?_, ih h.2⟩
      simp only [List.mem_map, List.mem_filterMap, Option.map_eq_some_iff] at hmem ⊢
      obtain ⟨_, ⟨a, ha, _, _, rfl⟩, hk⟩ := hmem
      exact ⟨a, ha, hk⟩

variable [DecidableEq κ]

@[simp] theorem get?_empty (key : κ) : (empty : OrderedMap κ α).get? key = none := rfl

theorem mem_of_get? {m : OrderedMap κ α} {key : κ} {value : α} (h : m.get? key = some value) :
    (key, value) ∈ m.entries := by
  obtain ⟨e, he, rfl⟩ := Option.map_eq_some_iff.1 h
  have hkey : e.1 = key := by simpa using List.find?_some he
  subst hkey
  exact List.mem_of_find?_eq_some he

theorem get?_of_mem {m : OrderedMap κ α} (hm : m.keys.Nodup) {key : κ} {value : α}
    (h : (key, value) ∈ m.entries) : m.get? key = some value := by
  obtain ⟨entries⟩ := m
  simp only [keys, get?] at hm h ⊢
  induction entries with
  | nil => cases h
  | cons e rest ih =>
    simp only [List.map_cons, List.nodup_cons] at hm
    rcases List.mem_cons.1 h with rfl | h
    · simp
    · have hne : e.1 ≠ key := by
        rintro rfl
        exact hm.1 (List.mem_map.2 ⟨_, h, rfl⟩)
      rw [List.find?_cons_of_neg (by simpa using hne)]
      exact ih hm.2 h

theorem mem_keys_iff (m : OrderedMap κ α) (key : κ) :
    key ∈ m.keys ↔ ∃ value, m.get? key = some value := by
  constructor
  · intro h
    obtain ⟨e, he, rfl⟩ := List.mem_map.1 h
    cases hv : m.get? e.1 with
    | some value => exact ⟨value, rfl⟩
    | none =>
      have := List.find?_eq_none.1 (Option.map_eq_none_iff.1 hv) e he
      simp at this
  · rintro ⟨value, hv⟩
    exact List.mem_map.2 ⟨_, mem_of_get? hv, rfl⟩

theorem contains_iff (m : OrderedMap κ α) (key : κ) : m.contains key = true ↔ key ∈ m.keys := by
  simp [contains, keys]

theorem mem_values_iff {m : OrderedMap κ α} (hm : m.keys.Nodup) (value : α) :
    value ∈ m.values ↔ ∃ key, m.get? key = some value := by
  constructor
  · intro h
    obtain ⟨e, he, rfl⟩ := List.mem_map.1 h
    exact ⟨e.1, get?_of_mem hm he⟩
  · rintro ⟨key, h⟩
    exact List.mem_map.2 ⟨_, mem_of_get? h, rfl⟩

theorem isEmpty_iff (m : OrderedMap κ α) : m.isEmpty = true ↔ ∀ key, m.get? key = none := by
  obtain ⟨entries⟩ := m
  cases entries with
  | nil => simp [isEmpty, get?]
  | cons e rest =>
    simp only [isEmpty, List.isEmpty_cons, Bool.false_eq_true, false_iff, not_forall]
    exact ⟨e.1, by simp [get?]⟩

theorem get?_map (f : α → β) (m : OrderedMap κ α) (key : κ) :
    (m.map f).get? key = (m.get? key).map f := by
  obtain ⟨entries⟩ := m
  simp only [get?, map]
  induction entries with
  | nil => rfl
  | cons e rest ih =>
    by_cases h : e.1 = key
    · simp [h]
    · simpa [h] using ih

theorem get?_erase (m : OrderedMap κ α) (key other : κ) :
    (m.erase key).get? other = if other = key then none else m.get? other := by
  obtain ⟨entries⟩ := m
  simp only [get?, erase]
  induction entries with
  | nil => simp
  | cons e rest ih =>
    by_cases hk : e.1 = key
    · rw [List.filter_cons_of_neg (by simpa using hk), ih]
      by_cases ho : other = key
      · simp [ho]
      · simp [ho, hk, Ne.symm ho]
    · rw [List.filter_cons_of_pos (by simpa using hk)]
      by_cases ho : e.1 = other
      · subst ho
        simp [hk]
      · simpa [ho] using ih

/-- What has been put under a key makes no difference once the key is gone. -/
theorem erase_put (m : OrderedMap κ α) (key : κ) (value : α) :
    (m.put key value).erase key = m.erase key := by
  obtain ⟨entries⟩ := m
  simp only [erase, put]
  congr 1
  induction entries with
  | nil => simp [putEntry]
  | cons e rest ih =>
    by_cases hk : e.1 = key
    · simp [putEntry, hk]
    · simp only [putEntry, hk, if_false, List.filter_cons, ih]

theorem erase_erase (m : OrderedMap κ α) (key : κ) : (m.erase key).erase key = m.erase key := by
  simp [erase, List.filter_filter]

theorem get?_alter (m : OrderedMap κ α) (key other : κ) (f : Option α → α) :
    (m.alter key f).get? other = if other = key then some (f (m.get? key)) else m.get? other :=
  get?_put m key other _

theorem get?_filterMap {m : OrderedMap κ α} (hm : m.keys.Nodup) (f : κ → α → Option β) (key : κ) :
    (m.filterMap f).get? key = (m.get? key).bind (f key) := by
  obtain ⟨entries⟩ := m
  simp only [keys, get?, filterMap] at hm ⊢
  induction entries with
  | nil => rfl
  | cons e rest ih =>
    simp only [List.map_cons, List.nodup_cons] at hm
    by_cases hk : e.1 = key
    · subst hk
      have hrest : ∀ a ∈ rest, a.1 ≠ e.1 := fun a ha h =>
        hm.1 (List.mem_map.2 ⟨a, ha, h⟩)
      cases hf : f e.1 e.2 with
      | some v => simp [hf]
      | none =>
        simp only [List.filterMap_cons, hf, Option.map_none, List.find?_cons, decide_true,
          Option.map_some, Option.bind_some]
        simp only [Option.map_eq_none_iff, List.find?_eq_none, List.mem_filterMap,
          Option.map_eq_some_iff, decide_eq_true_eq]
        rintro _ ⟨a, ha, v, _, rfl⟩
        exact hrest a ha
    · rw [List.find?_cons_of_neg (by simpa using hk), ← ih hm.2, List.filterMap_cons]
      cases hf : f e.1 e.2 with
      | none => simp
      | some v => simp [hk]

theorem keys_putEntry (key : κ) (value : α) (entries : List (κ × α)) :
    (putEntry key value entries).map (·.1) =
      if key ∈ entries.map (·.1) then entries.map (·.1) else entries.map (·.1) ++ [key] := by
  induction entries with
  | nil => simp [putEntry]
  | cons e rest ih =>
    by_cases hk : e.1 = key
    · simp [putEntry, hk]
    · simp only [putEntry, hk, if_false, List.map_cons, ih, List.mem_cons, Ne.symm hk, false_or]
      split <;> simp

theorem keys_put (m : OrderedMap κ α) (key : κ) (value : α) :
    (m.put key value).keys = if key ∈ m.keys then m.keys else m.keys ++ [key] :=
  keys_putEntry key value m.entries

/-- A new key comes last. -/
theorem entries_put_of_get?_none {m : OrderedMap κ α} {key : κ} (h : m.get? key = none) (value : α) :
    (m.put key value).entries = m.entries ++ [(key, value)] := by
  obtain ⟨entries⟩ := m
  simp only [get?, put, Option.map_eq_none_iff] at h ⊢
  induction entries with
  | nil => rfl
  | cons e rest ih =>
    have hne : e.1 ≠ key := by simpa using List.find?_eq_none.1 h e List.mem_cons_self
    rw [List.find?_cons_of_neg (by simpa using hne)] at h
    simp [putEntry, hne, ih h]

/-- Under names that are all new, changes put in what they make of nothing. -/
theorem entries_foldl_alter (f : β → Option α → α) {m : OrderedMap κ α} {items : List (κ × β)}
    (h : (m.keys ++ items.map (·.1)).Nodup) :
    (items.foldl (fun m e => m.alter e.1 (f e.2)) m).entries =
      m.entries ++ items.map fun e => (e.1, f e.2 none) := by
  induction items generalizing m with
  | nil => simp
  | cons e rest ih =>
    have hnew : m.get? e.1 = none := by
      by_contra hne
      obtain ⟨value, hvalue⟩ := Option.ne_none_iff_exists'.1 hne
      exact (List.nodup_append.1 h).2.2 e.1 ((mem_keys_iff m _).2 ⟨value, hvalue⟩) e.1
        List.mem_cons_self rfl
    have hput := entries_put_of_get?_none hnew (f e.2 none)
    rw [List.foldl_cons, alter, hnew, ih (by simpa [keys, hput] using h), hput]
    simp

theorem entries_ofList {entries : List (κ × α)} (h : (entries.map (·.1)).Nodup) :
    (ofList entries).entries = entries := by
  have hentries := entries_foldl_alter (fun value _ => value) (m := (empty : OrderedMap κ α)) (by simpa)
  refine hentries.trans ?_
  simp [empty]

theorem nodup_keys_put {m : OrderedMap κ α} (h : m.keys.Nodup) (key : κ) (value : α) :
    (m.put key value).keys.Nodup := by
  rw [keys_put]
  split
  · exact h
  · rename_i hk
    rw [List.nodup_append]
    refine ⟨h, by simp, ?_⟩
    rintro a ha b hb rfl
    simp only [List.mem_singleton] at hb
    exact hk (hb ▸ ha)

theorem nodup_keys_alter {m : OrderedMap κ α} (h : m.keys.Nodup) (key : κ) (f : Option α → α) :
    (m.alter key f).keys.Nodup :=
  nodup_keys_put h key _

theorem nodup_keys_erase {m : OrderedMap κ α} (h : m.keys.Nodup) (key : κ) :
    (m.erase key).keys.Nodup := by
  have hsub : List.Sublist (m.erase key).keys m.keys := List.filter_sublist.map _
  exact hsub.nodup h

/-! ## Putting many -/

theorem nodup_keys_foldl_put {m : OrderedMap κ α} (h : m.keys.Nodup) (f : β → κ) (g : β → α)
    (items : List β) : (items.foldl (fun m e => m.put (f e) (g e)) m).keys.Nodup := by
  induction items generalizing m with
  | nil => exact h
  | cons e rest ih => exact ih (nodup_keys_put h _ _)

theorem mem_keys_foldl_put (m : OrderedMap κ α) (f : β → κ) (g : β → α) (items : List β) (key : κ) :
    key ∈ (items.foldl (fun m e => m.put (f e) (g e)) m).keys ↔ key ∈ m.keys ∨ key ∈ items.map f := by
  induction items generalizing m with
  | nil => simp
  | cons e rest ih =>
    rw [List.foldl_cons, ih, mem_keys_iff, mem_keys_iff m, get?_put, List.map_cons, List.mem_cons]
    by_cases hkey : key = f e
    · simp [hkey]
    · simp [hkey]

/-- The last value that is put under a key is the one that is there. -/
theorem get?_foldl_put_last (m : OrderedMap κ α) (before after : List (κ × α)) {key : κ} {value : α}
    (h : key ∉ after.map (·.1)) :
    ((before ++ (key, value) :: after).foldl (fun m e => m.put e.1 e.2) m).get? key = some value := by
  rw [List.foldl_append, List.foldl_cons]
  generalize before.foldl (fun m e => m.put e.1 e.2) m = mid
  suffices hafter : ∀ m' : OrderedMap κ α, m'.get? key = some value →
      (after.foldl (fun m e => m.put e.1 e.2) m').get? key = some value by
    exact hafter _ (by rw [get?_put, if_pos rfl])
  induction after with
  | nil => exact fun _ hvalue => hvalue
  | cons e rest ih =>
    intro m' hvalue
    obtain ⟨hne, hrest⟩ := not_or.1 (mt List.mem_cons.2 h)
    exact ih hrest _ (by rw [get?_put, if_neg hne, hvalue])

/-- Of entries under distinct keys, each is read; the rest is as before. -/
theorem get?_foldl_put (m : OrderedMap κ α) {entries : List (κ × α)} (h : (entries.map (·.1)).Nodup)
    (key : κ) : (entries.foldl (fun m e => m.put e.1 e.2) m).get? key =
      ((OrderedMap.mk entries).get? key).or (m.get? key) := by
  induction entries generalizing m with
  | nil => rfl
  | cons e rest ih =>
    obtain ⟨hnew, hrest⟩ := List.nodup_cons.1 h
    rw [List.foldl_cons, ih (m.put e.1 e.2) hrest, get?_put]
    by_cases hkey : e.1 = key
    · subst hkey
      have hnone : (OrderedMap.mk rest).get? e.1 = none := by
        rw [← Option.not_isSome_iff_eq_none, Option.isSome_iff_exists, ← mem_keys_iff]
        exact hnew
      rw [hnone, if_pos rfl]
      simp [get?]
    · simp [get?, hkey, Ne.symm hkey]

/-- What is put depends on the key alone. -/
theorem get?_foldl_put_keys (m : OrderedMap κ α) (f : κ → α) (keys : List κ) (key : κ) :
    (keys.foldl (fun m k => m.put k (f k)) m).get? key =
      if key ∈ keys then some (f key) else m.get? key := by
  induction keys generalizing m with
  | nil => simp
  | cons k rest ih =>
    rw [List.foldl_cons, ih, get?_put]
    by_cases hkey : key = k
    · simp [hkey]
    · simp [hkey]

/-! ## Values, whatever their keys -/

theorem mem_values_of_get? {m : OrderedMap κ α} {key : κ} {value : α} (h : m.get? key = some value) :
    value ∈ m.values :=
  List.mem_map.2 ⟨(key, value), mem_of_get? h, rfl⟩

theorem values_put_subset (m : OrderedMap κ α) (key : κ) (value : α) :
    (m.put key value).values ⊆ value :: m.values := by
  obtain ⟨entries⟩ := m
  simp only [values, put]
  induction entries with
  | nil => exact List.Subset.refl _
  | cons e rest ih =>
    rw [putEntry]
    split
    · rw [List.map_cons, List.map_cons]
      exact List.cons_subset_cons _ (List.subset_cons_self _ _)
    · rw [List.map_cons, List.map_cons]
      refine List.cons_subset.2 ⟨by simp, List.Subset.trans ih ?_⟩
      exact List.cons_subset_cons _ (List.subset_cons_self _ _)

theorem values_foldl_put_subset (m : OrderedMap κ α) (f : β → κ) (g : β → α) (items : List β) :
    (items.foldl (fun m e => m.put (f e) (g e)) m).values ⊆ items.map g ++ m.values := by
  induction items generalizing m with
  | nil => exact List.Subset.refl _
  | cons e rest ih =>
    refine List.Subset.trans (ih (m.put (f e) (g e))) ?_
    refine List.append_subset.2 ⟨by simp, ?_⟩
    exact List.Subset.trans (values_put_subset m _ _) (by simp)

theorem values_erase_subset (m : OrderedMap κ α) (key : κ) : (m.erase key).values ⊆ m.values :=
  List.Sublist.subset (List.filter_sublist.map _)

end OrderedMap
end UILayout
