import UILayout.Proofs.Schema.Classes

/-!
# UILayout.Proofs.Schema.FrameTypes

Compiled frame types, each at the place of its definition. The properties of a frame type are those of all
classes of its chain, one class after the other; a name that comes a second time is refused, but a class
has put each name in once before this is looked at.

* `entries_mergeAll`, `of_mergeAll_eq_error`: the properties of a chain.
* `FrameTypeDef.Gives.lineage`: the classes of a frame type.
* `of_compileFrameTypes`, `of_compileFrameTypes_eq_error`: all frame types.
-/

namespace UILayout
namespace Schema

/-! ## The properties of a chain -/

section

variable {frameType : String} {m m' : NameMap PropertyId} {entries : List (String × PropertyId)}
  {cs : List FrameClass} {fault : Fault}

theorem entries_mergeProperties (h : mergeProperties frameType m entries = .ok m') :
    m'.entries = m.entries ++ entries ∧ (m.keys.Nodup → m'.keys.Nodup) := by
  induction entries generalizing m with
  | nil =>
    cases h
    simp
  | cons e rest ih =>
    rw [mergeProperties] at h
    split at h
    · cases h
    · rename_i hnew
      obtain ⟨hentries, hnodup⟩ := ih h
      have hnone : m.get? e.1 = none := by
        rw [← Option.not_isSome_iff_eq_none, Option.isSome_iff_exists, ← OrderedMap.mem_keys_iff,
          ← OrderedMap.contains_iff]
        exact hnew
      rw [hentries, OrderedMap.entries_put_of_get?_none hnone]
      exact ⟨by simp, fun hm => hnodup (OrderedMap.nodup_keys_put hm _ _)⟩

/-- A name is refused that is there already, or that has come before in the same class. -/
theorem of_mergeProperties_eq_error (h : mergeProperties frameType m entries = .error fault) :
    ∃ before e after, entries = before ++ e :: after ∧ fault = .duplicateProperty frameType e.1 ∧
      (e.1 ∈ m.keys ∨ e.1 ∈ before.map (·.1)) := by
  induction entries generalizing m with
  | nil => cases h
  | cons e rest ih =>
    rw [mergeProperties] at h
    split at h
    · rename_i hthere
      cases h
      exact ⟨[], e, rest, rfl, rfl, .inl ((OrderedMap.contains_iff m e.1).1 hthere)⟩
    · obtain ⟨before, e', after, rfl, hfault, hthere⟩ := ih h
      refine ⟨e :: before, e', after, rfl, hfault, ?_⟩
      rw [OrderedMap.mem_keys_iff, OrderedMap.get?_put] at hthere
      rw [List.map_cons, List.mem_cons]
      by_cases hname : e'.1 = e.1
      · exact .inr (.inl hname)
      · rw [if_neg hname, ← OrderedMap.mem_keys_iff] at hthere
        exact hthere.imp_right .inr

theorem entries_mergeAll
    (h : cs.foldlM (fun m c => mergeProperties frameType m c.properties.entries) m = .ok m') :
    m'.entries = m.entries ++ cs.flatMap (·.properties.entries) ∧ (m.keys.Nodup → m'.keys.Nodup) := by
  refine foldlM_induct (P := fun passed (m' : NameMap PropertyId) =>
    m'.entries = m.entries ++ passed.flatMap (·.properties.entries) ∧
      (m.keys.Nodup → m'.keys.Nodup)) h ⟨by simp, id⟩ ?_
  rintro passed c u u' ⟨hentries, hnodup⟩ hstep
  obtain ⟨hentries', hnodup'⟩ := entries_mergeProperties hstep
  exact ⟨by simp [hentries', hentries], hnodup' ∘ hnodup⟩

/-- When no class has a name twice, it takes two classes for a name to be refused. -/
theorem of_mergeAll_eq_error (hkeys : ∀ c ∈ cs, c.properties.keys.Nodup)
    (h : cs.foldlM (fun m c => mergeProperties frameType m c.properties.entries) .empty =
      .error fault) :
    ∃ before c after b name, cs = before ++ c :: after ∧ b ∈ before ∧ name ∈ b.properties.keys ∧
      name ∈ c.properties.keys ∧ fault = .duplicateProperty frameType name := by
  obtain ⟨before, c, after, m, rfl, hbefore, hfault⟩ := of_foldlM_eq_error h
  obtain ⟨hentries, -⟩ := entries_mergeAll hbefore
  obtain ⟨front, e, back, hsplit, rfl, hthere⟩ := of_mergeProperties_eq_error hfault
  have hmem : e.1 ∈ c.properties.keys := by
    rw [OrderedMap.keys, hsplit]
    simp
  rcases hthere with hthere | hthere
  · rw [OrderedMap.keys, hentries] at hthere
    simp only [OrderedMap.empty, List.nil_append, List.map_flatMap, List.mem_flatMap] at hthere
    obtain ⟨b, hb, hname⟩ := hthere
    exact ⟨before, c, after, b, e.1, rfl, hb, hname, hmem, rfl⟩
  · have hnodup := hkeys c (by simp)
    rw [OrderedMap.keys, hsplit, List.map_append, List.map_cons] at hnodup
    exact absurd rfl ((List.nodup_append.1 hnodup).2.2 e.1 hthere e.1 List.mem_cons_self)

end

/-! ## Frame types and their definitions -/

/-- A frame type has been compiled from a definition, where `classNames` are those of all classes. -/
structure FrameTypeDef.Gives (classNames : List String) (tables : ClassTables) (d : FrameTypeDef)
    (f : FrameType) : Prop where
  name : f.name = d.name
  classes : ∃ primary, lookup .frameClass classNames d.frameClass d.name = .ok primary ∧
    f.classes = (classChain? tables.classes (tables.classes.size + 1) (some primary)).getD []
  properties : (f.classes.filterMap (tables.classes[·]?)).foldlM
    (fun m c => mergeProperties d.name m c.properties.entries) .empty = .ok f.properties

section

variable {classNames typeNames : List String} {tables : ClassTables} {fault : Fault}

theorem of_compileFrameType {done done' : Array FrameType} {d : FrameTypeDef}
    (h : compileFrameType classNames typeNames tables done d = .ok done') :
    ∃ f, done' = done.push f ∧ d.Gives classNames tables f ∧ ∀ g ∈ done, g.name ≠ f.name := by
  obtain ⟨primary, hprimary, h⟩ := exists_of_bind_eq_ok h
  obtain ⟨type, -, h⟩ := exists_of_bind_eq_ok h
  dsimp only at h
  split at h
  all_goals
    obtain ⟨custom?, -, h⟩ := exists_of_bind_eq_ok h
    obtain ⟨properties, hproperties, h⟩ := exists_of_bind_eq_ok h
    split at h
    · cases h
    · rename_i hnew
      cases h
      exact ⟨_, rfl, ⟨rfl, ⟨primary, hprimary, rfl⟩, hproperties⟩, fun g hg hname =>
        hnew (Array.any_eq_true'.2 ⟨g, hg, decide_eq_true hname⟩)⟩

theorem of_compileFrameTypes {defs : List FrameTypeDef} {frameTypes : Array FrameType}
    (h : compileFrameTypes classNames typeNames tables defs = .ok frameTypes) :
    List.Forall₂ (FrameTypeDef.Gives classNames tables) defs frameTypes.toList := by
  refine foldlM_induct (P := fun passed (done : Array FrameType) =>
    List.Forall₂ (FrameTypeDef.Gives classNames tables) passed done.toList) h .nil ?_
  intro passed d done done' hdone hstep
  obtain ⟨f, rfl, hgives, -⟩ := of_compileFrameType hstep
  rw [Array.toList_push]
  exact List.rel_append hdone (.cons hgives .nil)

/-- Frame types are refused for a single fault, or for the properties of one chain. -/
theorem of_compileFrameTypes_eq_error {defs : List FrameTypeDef}
    (h : compileFrameTypes classNames typeNames tables defs = .error fault) :
    fault.Single ∨ ∃ d ∈ defs, ∃ primary,
      lookup .frameClass classNames d.frameClass d.name = .ok primary ∧
      (((classChain? tables.classes (tables.classes.size + 1) (some primary)).getD []).filterMap
        (tables.classes[·]?)).foldlM (fun m c => mergeProperties d.name m c.properties.entries) .empty =
          .error fault := by
  obtain ⟨before, d, after, done, rfl, -, hfault⟩ := of_foldlM_eq_error h
  rcases of_bind_eq_error hfault with hfault | ⟨primary, hprimary, h⟩
  · exact .inl (single_of_lookup hfault)
  rcases of_bind_eq_error h with hfault | ⟨type, -, h⟩
  · exact .inl (single_of_lookup hfault)
  dsimp only at h
  split at h
  all_goals
    rcases of_bind_eq_error h with hfault | ⟨custom?, -, h⟩
    · first
        | exact .inl (single_of_lookup (of_map_eq_error hfault))
        | cases hfault
    rcases of_bind_eq_error h with hfault | ⟨properties, -, h⟩
    · exact .inr ⟨d, by simp, primary, hprimary, hfault⟩
    · split at h <;> cases h
      exact .inl trivial

/-- The classes of a frame type are the chain of the class that its definition names. -/
theorem FrameTypeDef.Gives.lineage {defs : List FrameClassDef} {d : FrameTypeDef} {f : FrameType}
    (h : d.Gives (defs.map (·.name)) tables f) (hof : tables.Of (defs.map (·.name)) defs)
    (hnames : (defs.map (·.name)).Nodup) (hall : ∀ id < defs.length, ∃ chain, Lineage defs id chain) :
    ∃ primary c, defs[primary]? = some c ∧ c.name = d.frameClass ∧ Lineage defs primary f.classes := by
  obtain ⟨primary, hprimary, hclasses⟩ := h.classes
  have hname := getElem?_of_lookup hprimary
  rw [List.getElem?_map] at hname
  obtain ⟨c, hc, hname⟩ := Option.map_eq_some_iff.1 hname
  obtain ⟨chain, hchain⟩ := hall primary (List.getElem?_eq_some_iff.1 hc).1
  have hle := Nat.le_succ_of_le (hchain.length_le hnames)
  rw [← hof.size] at hle
  rw [hof.classChain?_of_lineage hnames hchain hle, Option.getD_some] at hclasses
  exact ⟨primary, c, hc, hname, hclasses ▸ hchain⟩

end

end Schema
end UILayout
