import UILayout.Namespace.Sync
import UILayout.Proofs.OrderedMap

/-!
# UILayout.Proofs.Namespace.Register

Registers: the tables of constants and handles, which keep for every name the values that have been
registered under it. `Lists` is what a register holds, `IsRegister` that no name is kept without
values, which is why dropping a document that has registered nothing changes nothing.

* `lists_dropFrom`, `lists_alter`: what is held after dropping a document and after one more value.
* `dropFrom_eq_self`: the order stays, too.
-/

namespace UILayout
namespace Namespace

variable {α : Type}

/-- `m` holds a value under a name. -/
def Lists (m : NameMap (List α)) (name : String) (value : α) : Prop :=
  ∃ values, m.get? name = some values ∧ value ∈ values

structure IsRegister (nameOf : α → String) (m : NameMap (List α)) : Prop where
  distinct : m.keys.Nodup
  nonempty : ∀ {name values}, m.get? name = some values → values ≠ []
  named : ∀ {name value}, Lists m name value → nameOf value = name

theorem IsRegister.empty (nameOf : α → String) : IsRegister nameOf (.empty : NameMap (List α)) := by
  refine ⟨by simp, ?_, ?_⟩
  · intro name values h
    cases h
  · rintro name value ⟨_, h, -⟩
    cases h

section DropFrom

variable {site : α → ElementRef} {document : DocumentId} {m : NameMap (List α)}

theorem get?_dropFrom (hm : m.keys.Nodup) (name : String) :
    (Edit.dropFrom site document m).get? name =
      (m.get? name).bind fun values =>
        if (values.filter fun v => decide ((site v).document ≠ document)).isEmpty then none
        else some (values.filter fun v => decide ((site v).document ≠ document)) := by
  rw [Edit.dropFrom, OrderedMap.get?_filterMap hm]

theorem lists_dropFrom (hm : m.keys.Nodup) (name : String) (value : α) :
    Lists (Edit.dropFrom site document m) name value ↔
      Lists m name value ∧ (site value).document ≠ document := by
  unfold Lists
  rw [get?_dropFrom hm]
  constructor
  · rintro ⟨values, hget, hmem⟩
    obtain ⟨all, hall, hif⟩ := Option.bind_eq_some_iff.1 hget
    split at hif
    · cases hif
    · cases hif
      obtain ⟨h1, h2⟩ := List.mem_filter.1 hmem
      exact ⟨⟨all, hall, h1⟩, by simpa using h2⟩
  · rintro ⟨⟨all, hall, hmem⟩, hne⟩
    have hin : value ∈ all.filter fun v => decide ((site v).document ≠ document) :=
      List.mem_filter.2 ⟨hmem, by simpa using hne⟩
    refine ⟨_, ?_, hin⟩
    rw [hall, Option.bind_some, if_neg]
    intro hempty
    rw [List.isEmpty_iff.1 hempty] at hin
    cases hin

theorem IsRegister.dropFrom {nameOf : α → String} (h : IsRegister nameOf m) :
    IsRegister nameOf (Edit.dropFrom site document m) := by
  refine ⟨OrderedMap.nodup_keys_filterMap _ h.distinct, ?_, ?_⟩
  · intro name values hget
    rw [get?_dropFrom h.distinct] at hget
    obtain ⟨all, -, hif⟩ := Option.bind_eq_some_iff.1 hget
    split at hif
    · cases hif
    · rename_i hne
      cases hif
      simpa [List.isEmpty_iff] using hne
  · intro name value hlists
    exact h.named ((lists_dropFrom h.distinct name value).1 hlists).1

/-- Nothing changes, not even the order, when no value stands in the document. -/
theorem dropFrom_eq_self {nameOf : α → String} (h : IsRegister nameOf m)
    (hany : Edit.anyFrom site document m = false) : Edit.dropFrom site document m = m := by
  have hkeep : ∀ e ∈ m.entries,
      e.2.filter (fun v => decide ((site v).document ≠ document)) = e.2 ∧ e.2 ≠ [] := by
    intro e he
    constructor
    · apply List.filter_eq_self.2
      intro v hv
      simp only [Edit.anyFrom, OrderedMap.values, List.any_map, List.any_eq_false,
        Function.comp_apply, List.any_eq_true, decide_eq_true_eq, not_exists, not_and] at hany
      simpa using hany e he v hv
    · exact h.nonempty (OrderedMap.get?_of_mem h.distinct he)
  obtain ⟨entries⟩ := m
  simp only [Edit.dropFrom, OrderedMap.filterMap]
  congr 1
  rw [List.filterMap_congr (g := some), List.filterMap_some]
  intro e he
  obtain ⟨hfilter, hne⟩ := hkeep e he
  rw [hfilter]
  simp [List.isEmpty_iff, hne]

theorem dropFrom_dropFrom (site : α → ElementRef) (document : DocumentId) (m : NameMap (List α)) :
    Edit.dropFrom site document (Edit.dropFrom site document m) = Edit.dropFrom site document m := by
  simp only [Edit.dropFrom, OrderedMap.filterMap, List.filterMap_filterMap]
  congr 2
  funext e
  split <;> simp_all

/-- A value that stands in the document makes no difference to what is left without it. -/
theorem dropFrom_alter {value : α} (h : (site value).document = document) (name : String) :
    Edit.dropFrom site document (m.alter name fun values => values.getD [] ++ [value]) =
      Edit.dropFrom site document m := by
  obtain ⟨entries⟩ := m
  simp only [Edit.dropFrom, OrderedMap.filterMap, OrderedMap.alter, OrderedMap.put, OrderedMap.get?]
  congr 1
  induction entries with
  | nil => simp [OrderedMap.putEntry, h]
  | cons e rest ih =>
    obtain ⟨other, values⟩ := e
    by_cases hname : other = name
    · subst hname
      have hfilter : (values ++ [value]).filter (fun v => decide ((site v).document ≠ document)) =
          values.filter fun v => decide ((site v).document ≠ document) := by
        simp [h]
      rw [List.find?_cons_of_pos (by simp), OrderedMap.putEntry, if_pos rfl, Option.map_some,
        Option.getD_some, List.filterMap_cons, List.filterMap_cons, hfilter]
    · rw [List.find?_cons_of_neg (by simpa using hname), OrderedMap.putEntry, if_neg hname,
        List.filterMap_cons, List.filterMap_cons, ih]

end DropFrom

theorem lists_alter (m : NameMap (List α)) (name other : String) (value v : α) :
    Lists (m.alter name fun values => values.getD [] ++ [value]) other v ↔
      Lists m other v ∨ other = name ∧ v = value := by
  unfold Lists
  rw [OrderedMap.get?_alter]
  by_cases h : other = name
  · subst h
    cases hget : m.get? other <;> simp
  · simp [h]

theorem IsRegister.alter {nameOf : α → String} {m : NameMap (List α)} (h : IsRegister nameOf m)
    (value : α) :
    IsRegister nameOf (m.alter (nameOf value) fun values => values.getD [] ++ [value]) := by
  refine ⟨OrderedMap.nodup_keys_alter h.distinct _ _, ?_, ?_⟩
  · intro name values hget
    rw [OrderedMap.get?_alter] at hget
    split at hget
    · cases hget
      simp
    · exact h.nonempty hget
  · intro name v hlists
    rcases (lists_alter m (nameOf value) name value v).1 hlists with hold | ⟨rfl, rfl⟩
    · exact h.named hold
    · rfl

end Namespace
end UILayout
