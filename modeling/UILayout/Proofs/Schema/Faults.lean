import UILayout.Proofs.Schema.Compiling

/-!
# UILayout.Proofs.Schema.Faults

Names and what they stand for, and the faults that single entries of a definition can have.

* `lookup_of_getElem?`, `exists_lookup_iff`: what a name stands for.
* `checkNames_eq_ok_iff`, `index_eq_of_name_eq`, `findIdx?_name_eq_some_iff`: names that are not given
  twice.
* `single_of_addOwn`: what a complex type says itself has no fault but names that nothing has.
-/

namespace UILayout
namespace Schema

/-! ## Names -/

section

variable {noun : Noun} {names : List String} {name source : String} {id : Nat}

theorem lookup_of_getElem? (noun : Noun) (source : String) (hnames : names.Nodup)
    (h : names[id]? = some name) : lookup noun names name source = .ok id := by
  cases hfound : lookup noun names name source with
  | ok i =>
    have hi := (getElem?_of_lookup hfound).trans h.symm
    rw [(List.getElem?_inj (lt_of_lookup hfound) hnames).1 hi]
  | error fault =>
    unfold lookup at hfound
    split at hfound
    · cases hfound
    · rename_i hnone
      exact absurd (List.mem_of_getElem? h) (List.idxOf?_eq_none_iff.1 hnone)

theorem exists_lookup_iff :
    (∃ id, lookup noun names name source = .ok id) ↔ name ∈ names := by
  constructor
  · rintro ⟨id, hid⟩
    exact List.mem_of_getElem? (getElem?_of_lookup hid)
  · intro hname
    unfold lookup
    split
    · exact ⟨_, rfl⟩
    · rename_i hnone
      exact absurd hname (List.idxOf?_eq_none_iff.1 hnone)

theorem nodup_of_checkNames {seen : List String} (h : checkNames noun seen names = .ok ()) :
    names.Nodup ∧ ∀ name ∈ names, name ∉ seen := by
  induction names generalizing seen with
  | nil => exact ⟨.nil, nofun⟩
  | cons name rest ih =>
    rw [checkNames] at h
    split at h
    · cases h
    · rename_i hnew
      obtain ⟨hrest, hseen⟩ := ih h
      refine ⟨List.nodup_cons.2 ⟨fun hmem => hseen name hmem List.mem_cons_self, hrest⟩, ?_⟩
      rintro other (_ | ⟨_, hother⟩)
      · simpa using hnew
      · exact fun hmem => hseen other hother (List.mem_cons_of_mem _ hmem)

theorem checkNames_eq_ok_iff {seen : List String} :
    checkNames noun seen names = .ok () ↔ names.Nodup ∧ ∀ name ∈ names, name ∉ seen := by
  refine ⟨nodup_of_checkNames, ?_⟩
  induction names generalizing seen with
  | nil => exact fun _ => rfl
  | cons name rest ih =>
    rintro ⟨hnodup, hseen⟩
    obtain ⟨hname, hrest⟩ := List.nodup_cons.1 hnodup
    rw [checkNames, if_neg (by simpa using hseen name List.mem_cons_self)]
    refine ih ⟨hrest, fun other hother => ?_⟩
    rintro (_ | ⟨_, hmem⟩)
    · exact hname hother
    · exact hseen other (List.mem_cons_of_mem _ hother) hmem

/-- Entries of one name are one entry, when names are not given twice. -/
theorem index_eq_of_name_eq {α : Type} {nameOf : α → String} {entries : List α} {i j : Nat} {a b : α}
    (hnames : (entries.map nameOf).Nodup) (ha : entries[i]? = some a) (hb : entries[j]? = some b)
    (hname : nameOf a = nameOf b) : i = j := by
  have ha' : (entries.map nameOf)[i]? = some (nameOf a) := by rw [List.getElem?_map, ha]; rfl
  have hb' : (entries.map nameOf)[j]? = some (nameOf a) := by rw [List.getElem?_map, hb, hname]; rfl
  exact (List.getElem?_inj (List.getElem?_eq_some_iff.1 ha').1 hnames).1 (ha'.trans hb'.symm)

/-- Where no two entries have one name, looking a name up gives the only entry that has it. -/
theorem findIdx?_name_eq_some_iff {α : Type} {nameOf : α → String} {table : Array α}
    (hnames : (table.toList.map nameOf).Nodup) :
    table.findIdx? (nameOf · = name) = some id ↔ ∃ a, table[id]? = some a ∧ nameOf a = name := by
  rw [Array.findIdx?_eq_some_iff_getElem]
  constructor
  · rintro ⟨hlt, hname, -⟩
    exact ⟨table[id], Array.getElem?_eq_getElem hlt, of_decide_eq_true hname⟩
  · rintro ⟨a, ha, rfl⟩
    obtain ⟨hlt, rfl⟩ := Array.getElem?_eq_some_iff.1 ha
    refine ⟨hlt, decide_eq_true rfl, fun j hj hname => ?_⟩
    have hb := Array.getElem?_eq_getElem (Nat.lt_trans hj hlt)
    rw [← Array.getElem?_toList] at ha hb
    exact Nat.ne_of_lt hj (index_eq_of_name_eq hnames hb ha (of_decide_eq_true hname))

end

/-! ## Faults -/

/-- A fault that a single entry can have: neither a cycle nor a property that is there twice. -/
def Fault.Single : Fault → Prop
  | .cycle .. | .duplicateProperty .. => False
  | _ => True

section

variable {noun : Noun} {names : List String} {name source : String} {fault : Fault}

theorem single_of_lookup (h : lookup noun names name source = .error fault) : fault.Single := by
  unfold lookup at h
  split at h <;> cases h
  trivial

theorem single_of_checkNames {seen : List String} (h : checkNames noun seen names = .error fault) :
    fault.Single := by
  induction names generalizing seen with
  | nil => cases h
  | cons name rest ih =>
    rw [checkNames] at h
    split at h
    · cases h
      trivial
    · exact ih h

theorem single_of_compileAlternates {names : Names} {d : SlotDef} {alternates : List (String × String)}
    (h : compileAlternates names d alternates = .error fault) : fault.Single := by
  induction alternates with
  | nil => cases h
  | cons e rest ih =>
    rcases of_bind_eq_error h with hfault | ⟨id, -, h⟩
    · exact single_of_lookup hfault
    · rcases of_bind_eq_error h with hfault | ⟨more, -, h⟩
      · exact ih hfault
      · cases h

/-- What a definition says itself has no fault but names that nothing has. -/
theorem single_of_addOwn {names : Names} {d : ComplexTypeDef} {t : ComplexType} {slots : Array Slot}
    (h : addOwn names d t slots = .error fault) : fault.Single := by
  rcases of_bind_eq_error h with hfault | ⟨t₁, -, h⟩
  · obtain ⟨-, a, -, t', -, -, hfault⟩ := of_foldlM_eq_error hfault
    rcases of_bind_eq_error hfault with hfault | ⟨type, -, hfault⟩
    · exact single_of_lookup hfault
    · cases hfault
  rcases of_bind_eq_error h with hfault | ⟨t₂, -, h⟩
  · obtain ⟨-, a, -, t', -, -, hfault⟩ := of_foldlM_eq_error hfault
    rcases of_bind_eq_error hfault with hfault | ⟨key, -, hfault⟩
    · exact single_of_lookup hfault
    rcases of_bind_eq_error hfault with hfault | ⟨value, -, hfault⟩
    · exact single_of_lookup hfault
    · cases hfault
  · obtain ⟨-, a, -, st, -, -, hfault⟩ := of_foldlM_eq_error h
    rcases of_bind_eq_error hfault with hfault | ⟨alternates, -, hfault⟩
    · exact single_of_compileAlternates hfault
    rcases of_bind_eq_error hfault with hfault | ⟨type, -, hfault⟩
    · exact single_of_lookup hfault
    · cases hfault

end

end Schema
end UILayout
