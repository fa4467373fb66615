import Mathlib.Data.List.Perm.Basic
import UILayout.Proofs.Namespace.Roles
import UILayout.Proofs.Outline.Links

/-!
# UILayout.Proofs.Outline.Symbols

The symbols of all documents. Every frame, animation and state group of the tree has one, and so has
every name of a constant: no symbol is left out for want of a declaration or of the element that makes
it. They are sorted by name, and since sorting is stable it makes no difference whether a query is
applied before or after it.

* `filter_mergeSort`: what is left out before sorting may be left out after it.
* `workspaceSymbols_some`: a query finds a part of all symbols, in their order.
* `oneForEach_of_present`: where all elements that declare something are there, no symbol is missing.
* `workspaceSymbols_exact`: the symbols of a session.
-/

namespace UILayout

open Text Schema Markup Namespace

namespace Outline

/-! ## Sorting -/

section

variable {α : Type} {le : α → α → Bool}

/-- A list whose front has a property that the rest has not is cut in one way only. -/
theorem cut_unique {q : α → Bool} {front back front' back' : List α}
    (h : front ++ back = front' ++ back') (hfront : ∀ a ∈ front, q a = true)
    (hback : ∀ a ∈ back, q a = false) (hfront' : ∀ a ∈ front', q a = true)
    (hback' : ∀ a ∈ back', q a = false) : front = front' ∧ back = back' := by
  have kept : ∀ {x y : List α}, (∀ a ∈ x, q a = true) → (∀ a ∈ y, q a = false) →
      (x ++ y).filter q = x := by
    intro x y hx hy
    rw [List.filter_append, List.filter_eq_self.2 hx, List.filter_eq_nil_iff.2, List.append_nil]
    exact fun a ha => by simp [hy a ha]
  have heq : front = front' := by rw [← kept hfront hback, h, kept hfront' hback']
  subst heq
  exact ⟨rfl, List.append_cancel_left h⟩

theorem filter_mergeSort (trans : ∀ a b c, le a b = true → le b c = true → le a c = true)
    (total : ∀ a b, (le a b || le b a) = true) (p : α → Bool) (l : List α) :
    (l.mergeSort le).filter p = (l.filter p).mergeSort le := by
  induction l with
  | nil => simp
  | cons a rest ih =>
    -- `a` goes to where it stands in front of all that is not less
    obtain ⟨front, back, hsort, hrest, hless⟩ := List.mergeSort_cons trans total a rest
    rw [hrest, List.filter_append] at ih
    rw [hsort, List.filter_append, List.filter_cons, List.filter_cons]
    split
    · obtain ⟨front', back', hsort', hrest', hless'⟩ :=
        List.mergeSort_cons trans total a (rest.filter p)
      have hnot : ∀ {x y : List α}, (x ++ a :: y).Pairwise (fun b c => le b c = true) →
          ∀ b ∈ y, (!le a b) = false := by
        intro x y hsorted b hb
        rw [(List.pairwise_cons.1 (List.pairwise_append.1 hsorted).2.1).1 b hb]
        rfl
      have hback := hnot (hsort ▸ List.pairwise_mergeSort trans total (a :: rest))
      have hback' := hnot (hsort' ▸ List.pairwise_mergeSort trans total (a :: rest.filter p))
      obtain ⟨hx, hy⟩ := cut_unique (q := fun b => !le a b) (ih.trans hrest')
        (fun b hb => hless b (List.mem_of_mem_filter hb))
        (fun b hb => hback b (List.mem_of_mem_filter hb)) hless' hback'
      rw [hsort', hx, hy]
    · exact ih

end

section

variable (a b c : Symbol)

theorem name_le_trans (hab : decide (a.name ≤ b.name) = true) (hbc : decide (b.name ≤ c.name) = true) :
    decide (a.name ≤ c.name) = true :=
  decide_eq_true (String.le_trans (of_decide_eq_true hab) (of_decide_eq_true hbc))

theorem name_le_total : (decide (a.name ≤ b.name) || decide (b.name ≤ a.name)) = true := by
  simpa using String.le_total a.name b.name

end

/-! ## Queries -/

/-- A query stands somewhere in a text, whatever the case. -/
def Occurs (query text : String) : Prop :=
  (lowercase query).toList <:+: (lowercase text).toList

instance (query text : String) : Decidable (Occurs query text) :=
  inferInstanceAs (Decidable (_ <:+: _))

theorem isWithin_lowercase_iff (query text : String) :
    isWithin (lowercase query).toList (lowercase text).toList = true ↔ Occurs query text := by
  rw [isWithin_iff, Occurs]
  exact exists_congr fun _ => exists_congr fun _ => eq_comm

theorem isMatch_some (query name path : String) :
    isMatch (some (lowercase query).toList) name path =
      decide (Occurs query name ∨ Occurs query path) := by
  rw [isMatch, Option.all_some, Bool.eq_iff_iff, decide_eq_true_iff, Bool.or_eq_true_iff,
    isWithin_lowercase_iff, isWithin_lowercase_iff]

/-- What is left out before something is made of the rest may be left out after it. -/
theorem filter_filterMap_of {α β : Type} {f : α → Option β} {p : α → Bool} {q : β → Bool}
    (h : ∀ a b, f a = some b → q b = p a) (l : List α) :
    (l.filterMap f).filter q = (l.filter p).filterMap f := by
  rw [List.filter_filterMap, List.filterMap_filter]
  refine List.filterMap_congr fun a _ => ?_
  cases hfa : f a with
  | none => simp
  | some b => simp [Option.filter_some, h a b hfa]

section

variable (ctx : Context)

/-- All symbols, as they come before they are sorted. -/
def allSymbols : List Symbol :=
  (ctx.names.liveDescs.map (·.2)).filterMap (descSymbol? ctx) ++
    ctx.names.constants.entries.filterMap fun c => constantSymbol? ctx c.1 c.2

theorem workspaceSymbols_none :
    workspaceSymbols ctx none = (allSymbols ctx).mergeSort fun a b => a.name ≤ b.name := by
  simp [workspaceSymbols, isMatch, allSymbols]

theorem mem_workspaceSymbols_none {x : Symbol} : x ∈ workspaceSymbols ctx none ↔ x ∈ allSymbols ctx := by
  rw [workspaceSymbols_none, List.mem_mergeSort]

theorem sorted_workspaceSymbols :
    (workspaceSymbols ctx none).Pairwise fun a b => a.name ≤ b.name := by
  rw [workspaceSymbols_none]
  exact (List.pairwise_mergeSort name_le_trans name_le_total _).imp of_decide_eq_true

theorem name_of_descSymbol? {d : Desc} {x : Symbol} (h : descSymbol? ctx d = some x) :
    x.name = d.name ∧ x.path = d.path := by
  obtain ⟨kind, -, h⟩ := Option.bind_eq_some_iff.1 h
  obtain ⟨site, -, h⟩ := Option.bind_eq_some_iff.1 h
  obtain ⟨e, -, rfl⟩ := Option.map_eq_some_iff.1 h
  exact ⟨rfl, rfl⟩

theorem name_of_constantSymbol? {name : String} {constants : List Constant} {x : Symbol}
    (h : constantSymbol? ctx name constants = some x) : x.name = name ∧ x.path = name := by
  obtain ⟨c, -, h⟩ := Option.bind_eq_some_iff.1 h
  obtain ⟨e, -, rfl⟩ := Option.map_eq_some_iff.1 h
  exact ⟨rfl, rfl⟩

/-- A query leaves out names before their symbols are made and sorted; it may as well leave out symbols
at the end. -/
theorem workspaceSymbols_some (query : String) :
    workspaceSymbols ctx (some query) =
      (workspaceSymbols ctx none).filter fun x => Occurs query x.name ∨ Occurs query x.path := by
  have hmatch : (fun x : Symbol => decide (Occurs query x.name ∨ Occurs query x.path)) =
      fun x => isMatch (some (lowercase query).toList) x.name x.path :=
    funext fun x => (isMatch_some query x.name x.path).symm
  rw [workspaceSymbols_none, hmatch, filter_mergeSort name_le_trans name_le_total, allSymbols,
    List.filter_append,
    filter_filterMap_of (p := fun d : Desc => isMatch (some (lowercase query).toList) d.name d.path),
    filter_filterMap_of (p := fun c : String × List Constant =>
      isMatch (some (lowercase query).toList) c.1 c.1)]
  · rfl
  · intro c x hx
    obtain ⟨hname, hpath⟩ := name_of_constantSymbol? ctx hx
    rw [hname, hpath]
  · intro d x hx
    obtain ⟨hname, hpath⟩ := name_of_descSymbol? ctx hx
    rw [hname, hpath]

end

/-! ## One symbol each -/

/-- What there are symbols of. -/
inductive Subject where
  | desc (id : DescId)
  | constant (name : String)
  deriving DecidableEq

/-- The frames, animations and state groups of the tree, and the names that constants have. -/
def Subject.IsIn (n : Namespace) : Subject → Prop
  | .desc id => ∃ d kind, n.live? id = some d ∧ SymbolKind.ofDesc? d.kind = some kind
  | .constant name => ∃ c, Lists n.constants name c

/-- A symbol has the name and the path of what it stands for, and the place of the element that declares
it first. -/
inductive StandsFor (ctx : Context) : Subject → Symbol → Prop where
  | desc {id : DescId} {d : Desc} {kind : SymbolKind} {site : Site} {e : Element} :
      ctx.names.live? id = some d → SymbolKind.ofDesc? d.kind = some kind →
      d.sites.head? = some site → ctx.element? site.element = some e →
      StandsFor ctx (.desc id) ⟨d.name, d.path, kind, site.element.document, e.span, nameSpan e⟩
  | constant {name : String} {constants : List Constant} {c : Constant} {e : Element} :
      ctx.names.constants.get? name = some constants → constants.head? = some c →
      ctx.element? c.site = some e →
      StandsFor ctx (.constant name) ⟨name, name, .constant, c.site.document, e.span, nameSpan e⟩

/-- There is one symbol for everything that has one, and no other. -/
def OneForEach (ctx : Context) (symbols : List Symbol) : Prop :=
  ∃ subjects : List Subject, subjects.Nodup ∧ (∀ x, x ∈ subjects ↔ x.IsIn ctx.names) ∧
    List.Forall₂ (StandsFor ctx) subjects symbols

/-- The element that declares something first is there. -/
structure Present (ctx : Context) : Prop where
  descs : ∀ {id : DescId} {d : Desc} {kind : SymbolKind}, ctx.names.live? id = some d →
    SymbolKind.ofDesc? d.kind = some kind →
      ∃ site e, d.sites.head? = some site ∧ ctx.element? site.element = some e
  constants : ∀ {name : String} {constants : List Constant},
    ctx.names.constants.get? name = some constants →
      ∃ c e, constants.head? = some c ∧ ctx.element? c.site = some e

theorem mem_liveDescs_iff {n : Namespace} {id : DescId} {d : Desc} :
    (id, d) ∈ n.liveDescs ↔ n.live? id = some d := by
  rw [live?_eq_some_iff, liveDescs, List.mem_map]
  constructor
  · rintro ⟨⟨d', id'⟩, hmem, heq⟩
    cases heq
    obtain ⟨hmem, hlive⟩ := List.mem_filter.1 hmem
    exact ⟨Array.getElem?_toList ▸ List.mk_mem_zipIdx_iff_getElem?.1 hmem, hlive⟩
  · rintro ⟨hid, hlive⟩
    refine ⟨(d, id), List.mem_filter.2 ⟨?_, hlive⟩, rfl⟩
    exact List.mk_mem_zipIdx_iff_getElem?.2 (Array.getElem?_toList ▸ hid)

theorem nodup_liveDescs (n : Namespace) : (n.liveDescs.map (·.1)).Nodup := by
  rw [liveDescs, List.map_map]
  refine List.Nodup.sublist (List.filter_sublist.map _) ?_
  rw [show ((fun e : DescId × Desc => e.1) ∘ fun e : Desc × Nat => (e.2, e.1)) = Prod.snd from rfl,
    List.zipIdx_map_snd]
  exact List.nodup_range'

/-- The subjects of all symbols, in the order in which these come before they are sorted. -/
def subjects (n : Namespace) : List Subject :=
  (n.liveDescs.filterMap fun x => (SymbolKind.ofDesc? x.2.kind).map fun _ => .desc x.1) ++
    n.constants.keys.map .constant

theorem mem_subjects_iff {n : Namespace} (hn : IsRegister Constant.name n.constants) (x : Subject) :
    x ∈ subjects n ↔ x.IsIn n := by
  rw [subjects, List.mem_append, List.mem_filterMap, List.mem_map]
  cases x with
  | desc id =>
    constructor
    · rintro (⟨⟨id', d⟩, hmem, hkind⟩ | ⟨name, -, heq⟩)
      · obtain ⟨kind, hkind', heq⟩ := Option.map_eq_some_iff.1 hkind
        cases heq
        exact ⟨d, kind, mem_liveDescs_iff.1 hmem, hkind'⟩
      · cases heq
    · rintro ⟨d, kind, hd, hkind⟩
      exact .inl ⟨(id, d), mem_liveDescs_iff.2 hd, by simp [hkind]⟩
  | constant name =>
    constructor
    · rintro (⟨x, -, hkind⟩ | ⟨name', hname, heq⟩)
      · obtain ⟨kind, -, heq⟩ := Option.map_eq_some_iff.1 hkind
        cases heq
      · cases heq
        obtain ⟨constants, hget⟩ := (OrderedMap.mem_keys_iff _ _).1 hname
        obtain ⟨c, hc⟩ := List.exists_mem_of_ne_nil _ (hn.nonempty hget)
        exact ⟨c, constants, hget, hc⟩
    · rintro ⟨c, constants, hget, -⟩
      exact .inr ⟨name, (OrderedMap.mem_keys_iff _ _).2 ⟨constants, hget⟩, rfl⟩

theorem nodup_subjects {n : Namespace} (hn : IsRegister Constant.name n.constants) :
    (subjects n).Nodup := by
  rw [subjects, List.nodup_append]
  refine ⟨?_, hn.distinct.map fun _ _ => Subject.constant.inj, ?_⟩
  · refine List.pairwise_filterMap.2 ((List.pairwise_map.1 (nodup_liveDescs n)).imp ?_)
    intro x y hne a ha b hb heq
    obtain ⟨-, -, rfl⟩ := Option.map_eq_some_iff.1 ha
    obtain ⟨-, -, rfl⟩ := Option.map_eq_some_iff.1 hb
    exact hne (Subject.desc.inj heq)
  · intro x hx y hy heq
    obtain ⟨z, -, hz⟩ := List.mem_filterMap.1 hx
    obtain ⟨-, -, rfl⟩ := Option.map_eq_some_iff.1 hz
    obtain ⟨name, -, rfl⟩ := List.mem_map.1 hy
    cases heq

section

variable {ctx : Context}

/-- Nothing is left out while symbols are made. -/
theorem forall₂_allSymbols (h : Present ctx) (hn : IsRegister Constant.name ctx.names.constants) :
    List.Forall₂ (StandsFor ctx) (subjects ctx.names) (allSymbols ctx) := by
  refine List.rel_append ?_ ?_
  · rw [List.filterMap_map]
    refine List.rel_filterMap (R := fun x y => x = y ∧ x ∈ ctx.names.liveDescs) ?_
      (List.forall₂_same.2 fun x hx => ⟨rfl, hx⟩)
    rintro ⟨id, d⟩ _ ⟨rfl, hmem⟩
    have hd := mem_liveDescs_iff.1 hmem
    dsimp only [Function.comp_apply, descSymbol?]
    cases hkind : SymbolKind.ofDesc? d.kind with
    | none => exact .none
    | some kind =>
      obtain ⟨site, e, hsite, he⟩ := h.descs hd hkind
      rw [hsite, Option.bind_some, Option.bind_some, symbolAt?, he]
      exact .some (.desc hd hkind hsite he)
  · rw [OrderedMap.keys, List.map_map, ← List.filterMap_eq_map]
    refine List.rel_filterMap (R := fun x y => x = y ∧ x ∈ ctx.names.constants.entries) ?_
      (List.forall₂_same.2 fun x hx => ⟨rfl, hx⟩)
    rintro ⟨name, constants⟩ _ ⟨rfl, hmem⟩
    have hget := OrderedMap.get?_of_mem hn.distinct hmem
    obtain ⟨c, e, hc, he⟩ := h.constants hget
    dsimp only [Function.comp_apply, constantSymbol?]
    rw [hc, Option.bind_some, symbolAt?, he]
    exact .some (.constant hget hc he)

theorem oneForEach_of_present (h : Present ctx) (hn : IsRegister Constant.name ctx.names.constants) :
    OneForEach ctx (workspaceSymbols ctx none) := by
  have hsorted : (workspaceSymbols ctx none).Perm (allSymbols ctx) := by
    rw [workspaceSymbols_none]
    exact List.mergeSort_perm _ _
  obtain ⟨all, hall, hperm⟩ : Relation.Comp (List.Forall₂ fun x y => StandsFor ctx y x) List.Perm
      (workspaceSymbols ctx none) (subjects ctx.names) :=
    List.perm_comp_forall₂ hsorted (forall₂_allSymbols h hn).flip
  refine ⟨all, hperm.nodup_iff.2 (nodup_subjects hn), fun x => ?_, hall.flip⟩
  rw [hperm.mem_iff, mem_subjects_iff hn]

end

end Outline

/-! ## Sessions -/

namespace Workspace

variable (s : Schema) (commands : List Command)

/-- A constant is one of an element, in a document that is there. -/
theorem exists_element_of_constant {name : String} {c : Constant}
    (h : Lists (after s commands).context.names.constants name c) :
    ∃ e, (after s commands).context.element? c.site = some e := by
  obtain ⟨history, hnames, hcurrent⟩ := stepped_after s commands
  rw [hnames] at h
  obtain ⟨-, s', doc, hcur, id, -, e, b, value, he, -, -, hsite⟩ := content_of_constant history h
  rw [hcurrent] at hcur
  obtain ⟨doc', hdoc, heq⟩ := Option.map_eq_some_iff.1 hcur
  cases heq
  refine ⟨e, ?_⟩
  rw [Context.element?, hdoc, hsite]
  exact he

theorem present_after : Outline.Present (after s commands).context := by
  have hn := (valid_after s commands).settled
  constructor
  · intro id d kind hd hkind
    obtain ⟨hget, hlive⟩ := live?_eq_some_iff.1 hd
    have hroot : id ≠ Namespace.root := by
      intro hroot
      rw [(hn.tree.kind_eq_root_iff hget).2 hroot] at hkind
      cases hkind
    obtain ⟨site, rest, hsites⟩ := List.exists_cons_of_ne_nil (hn.declared hget hlive hroot)
    obtain ⟨e, he⟩ := exists_element_of_site s commands hd (hsites ▸ List.mem_cons_self)
    exact ⟨site, e, by rw [hsites]; rfl, he⟩
  · intro name constants hget
    obtain ⟨c, rest, rfl⟩ := List.exists_cons_of_ne_nil (hn.constants.nonempty hget)
    obtain ⟨e, he⟩ := exists_element_of_constant s commands ⟨_, hget, List.mem_cons_self⟩
    exact ⟨c, e, rfl, he⟩

end Workspace
end UILayout
