import UILayout.Proofs.Hierarchy.Merge

/-!
# UILayout.Proofs.Hierarchy.Defaults

The default state of a state group. Whatever declares a source of the node may give one, and of all
that are given, source by source, the last one counts. The desc of the node is the first of its
sources, so that what it inherits has the last word, and not the desc.

* `mem_defaults`: where default states come from.
* `Coherent.default_of_stateGroup`: which one counts.
* `own_iff_inherited`: when that is one of the desc itself.
-/

namespace UILayout
namespace Hierarchy

open Namespace Schema Markup

/-- What a state group has for its default state; nothing else has one. -/
def Detail.default? : Detail → Option (Option String)
  | .stateGroup default? _ => some default?
  | _ => none

theorem Detail.default?_eq_some_iff {detail : Detail} {value? : Option String} :
    detail.default? = some value? ↔ ∃ states, detail = .stateGroup value? states := by
  cases detail <;> simp [Detail.default?]

/-- An element that declares the desc has a default state for a child. -/
def GivesDefault (ctx : Context) (id : DescId) (value : String) : Prop :=
  ∃ d, ctx.names.live? id = some d ∧ ∃ site ∈ d.sites, ∃ doc,
    ctx.document? site.element.document = some doc ∧ ∃ child ∈ doc.below site.element.element, ∃ e b,
      doc.element? child = some e ∧ e.binding? = some b ∧
        ctx.schema.slotKind b.slot = .stateGroupDefaultState ∧ e.value? "val" = some value

/-- The default states that some descs give, in their order. -/
def defaults (ctx : Context) (sources : List DescId) : List String :=
  (parts ctx sources).filterMap fun p =>
    if p.1 = .stateGroupDefaultState then p.2.2.value? "val" else none

section

variable {ctx : Context} {sources : List DescId} {id : DescId} {value : String}

theorem mem_parts {kind : SlotKind} {ref : ElementRef} {e : Element} :
    (kind, ref, e) ∈ parts ctx sources ↔
      ∃ id ∈ sources, ∃ d, ctx.names.live? id = some d ∧ ∃ site ∈ d.sites, ∃ doc,
        ctx.document? site.element.document = some doc ∧
          ∃ child ∈ doc.below site.element.element, doc.ref child = ref ∧
            doc.element? child = some e ∧ ∃ b, e.binding? = some b ∧ ctx.schema.slotKind b.slot = kind := by
  unfold parts
  simp only [List.mem_flatMap, List.mem_filterMap]
  constructor
  · rintro ⟨d, ⟨id, hid, hd⟩, site, hsite, hpart⟩
    split at hpart
    · cases hpart
    · rename_i doc hdoc
      obtain ⟨child, hchild, hbound⟩ := List.mem_filterMap.1 hpart
      obtain ⟨x, hx, hmap⟩ := Option.bind_eq_some_iff.1 hbound
      obtain ⟨b, hb, heq⟩ := Option.map_eq_some_iff.1 hmap
      cases heq
      exact ⟨id, hid, d, hd, site, hsite, doc, hdoc, child, hchild, rfl, hx, b, hb, rfl⟩
  · rintro ⟨id, hid, d, hd, site, hsite, doc, hdoc, child, hchild, rfl, hx, b, hb, rfl⟩
    refine ⟨d, ⟨id, hid, hd⟩, site, hsite, ?_⟩
    rw [hdoc]
    refine List.mem_filterMap.2 ⟨child, hchild, ?_⟩
    rw [hx, Option.bind_some, hb, Option.map_some]

theorem mem_defaults : value ∈ defaults ctx sources ↔ ∃ id ∈ sources, GivesDefault ctx id value := by
  unfold defaults GivesDefault
  rw [List.mem_filterMap]
  constructor
  · rintro ⟨⟨kind, ref, e⟩, hpart, hvalue⟩
    obtain ⟨id, hid, d, hd, site, hsite, doc, hdoc, child, hchild, -, he, b, hb, hk⟩ :=
      mem_parts.1 hpart
    split at hvalue
    · rename_i hkind
      exact ⟨id, hid, d, hd, site, hsite, doc, hdoc, child, hchild, e, b, he, hb, hk.trans hkind, hvalue⟩
    · cases hvalue
  · rintro ⟨id, hid, d, hd, site, hsite, doc, hdoc, child, hchild, e, b, he, hb, hk, hvalue⟩
    refine ⟨(ctx.schema.slotKind b.slot, doc.ref child, e), ?_, ?_⟩
    · exact mem_parts.2
        ⟨id, hid, d, hd, site, hsite, doc, hdoc, child, hchild, rfl, he, b, hb, rfl⟩
    · rw [if_pos hk, hvalue]

theorem mem_defaults_singleton : value ∈ defaults ctx [id] ↔ GivesDefault ctx id value := by
  simp [mem_defaults]

theorem defaults_cons (ctx : Context) (id : DescId) (sources : List DescId) :
    defaults ctx (id :: sources) = defaults ctx [id] ++ defaults ctx sources := by
  unfold defaults parts
  rw [← List.singleton_append, List.filterMap_append, List.flatMap_append, List.filterMap_append]

/-! ## The node of a state group -/

theorem default_detailOf {default? : Option String} {states : NameMap (List ElementRef)}
    (h : detailOf ctx id sources = .stateGroup default? states) :
    default? = (defaults ctx sources).getLast? := by
  unfold detailOf at h
  split at h <;> try cases h
  congr 1
  rw [List.filterMap_filterMap]
  unfold defaults
  congr 1
  funext p
  split <;> rfl

/-- The sources of a node begin with its desc, and no other source is that desc. -/
theorem Coherent.sources_eq {h : Hierarchy} (hc : Coherent ctx h) (tree : IsTree ctx.names)
    {node p : NodeId} {n : Node} (hn : h.live? node = some n) (hp : n.parent? = some p) :
    ∃ rest, n.sources = n.main :: rest ∧ n.main ∉ rest ∧ n.detail = detailOf ctx n.main n.sources := by
  obtain ⟨pn, hpn, hslot⟩ := hc.slot_of_parent hn hp
  obtain ⟨hnodup, hlive⟩ := slot_descs tree hslot
  obtain ⟨hview, -⟩ := (hc.hung hn).made hp
  have hdetail : n.detail = detailOf ctx n.main n.sources := detail_of_viewOf? hview
  unfold viewOf? at hview
  split at hview
  · cases hview
  · rename_i main more hdescs
    split at hview
    · cases hview
    · have heq := Option.some.inj hview
      rw [hdescs] at heq
      have hmain : n.main = main := (congrArg View.main heq).symm
      have hsources : n.sources = (Reach.ofDescs ctx (main :: more)).sources :=
        (congrArg View.sources heq).symm
      rw [hdescs] at hnodup hlive
      obtain ⟨rest, hrest⟩ := Reach.prefix_sources hlive hnodup
      have hmore : n.sources = n.main :: (more ++ rest) := by
        rw [hsources, ← hrest, hmain, List.cons_append]
      have hfresh : n.sources.Nodup := hsources ▸ Reach.nodup_sources ctx _
      rw [hmore, List.nodup_cons] at hfresh
      exact ⟨more ++ rest, hmore, hfresh.1, hdetail⟩

/-- What is inherited comes last and so counts first. -/
theorem Coherent.default_of_stateGroup {h : Hierarchy} (hc : Coherent ctx h) (tree : IsTree ctx.names)
    {node : NodeId} {n : Node} (hn : h.live? node = some n) {default? : Option String}
    {states : NameMap (List ElementRef)} (hdetail : n.detail = .stateGroup default? states) :
    ∃ inherited, n.sources = n.main :: inherited ∧ n.main ∉ inherited ∧
      default? = (defaults ctx inherited).getLast?.or (defaults ctx [n.main]).getLast? := by
  cases hp : n.parent? with
  | none =>
    obtain ⟨-, hview⟩ := (hc.hung hn).root hp
    have hroot : n.detail = .root := congrArg View.detail hview
    rw [hroot] at hdetail
    cases hdetail
  | some p =>
    obtain ⟨inherited, hsources, hnew, heq⟩ := hc.sources_eq tree hn hp
    refine ⟨inherited, hsources, hnew, ?_⟩
    rw [default_detailOf (heq.symm.trans hdetail), hsources, defaults_cons, List.getLast?_append]

/-- Where the desc itself gives a default state, one of its own counts just when the last one that is
inherited, if any is, has the same value as one of its own. -/
theorem own_iff_inherited {main : DescId} {inherited : List DescId}
    (hown : ∃ value, GivesDefault ctx main value) :
    (∃ value, (defaults ctx inherited).getLast?.or (defaults ctx [main]).getLast? = some value ∧
        GivesDefault ctx main value) ↔
      ∀ value, (defaults ctx inherited).getLast? = some value → GivesDefault ctx main value := by
  cases hlast : (defaults ctx inherited).getLast? with
  | some value => simp
  | none =>
    obtain ⟨value, hvalue⟩ := hown
    have hne : defaults ctx [main] ≠ [] := List.ne_nil_of_mem (mem_defaults_singleton.2 hvalue)
    refine iff_of_true ⟨(defaults ctx [main]).getLast hne, ?_, ?_⟩ nofun
    · rw [Option.none_or, List.getLast?_eq_some_getLast hne]
    · exact mem_defaults_singleton.1 (List.getLast_mem hne)

end

end Hierarchy
end UILayout
