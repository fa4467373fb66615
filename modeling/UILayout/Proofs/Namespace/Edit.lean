import Mathlib.Data.List.Basic
import UILayout.Namespace.Sync

/-!
# UILayout.Proofs.Namespace.Edit

What each step of an edit does to the descs, one number at a time. Everything said about edits
elsewhere is derived from these descriptions; no other module unfolds a step.

* `descs_foldl_withdrawSites`: taking a document back changes the descs that it holds, and only those.
* `declareChild_old`, `declareChild_new`: a declaration goes to the child of its name, or to a new one.
* `climb_eq_unlink`, `climb_eq_self`: what pruning does at one desc.
-/

namespace UILayout
namespace Namespace

open Schema Markup

namespace Desc

/-- A desc after the declarations in a document have been taken back. -/
def without (document : DocumentId) (revision : Nat) (d : Desc) : Desc :=
  if (d.sitesIn document).isEmpty then d
  else { d with sites := d.sites.filter (·.element.document ≠ document), changedAt := revision }

/-- A desc with one more declaration. -/
def declared (site : Site) (revision : Nat) (d : Desc) : Desc :=
  { (if d.sites.any (·.element = site.element) then d else { d with sites := d.sites ++ [site] }) with
    changedAt := revision }

/-- A desc with one more child. -/
def withChild (name : String) (id : DescId) (revision : Nat) (d : Desc) : Desc :=
  { d with children := d.children.put name id, changedAt := revision }

/-- A desc without the child of a name. -/
def withoutChild (name : String) (revision : Nat) (d : Desc) : Desc :=
  { d with children := d.children.erase name, changedAt := revision }

/-- What a desc is given when it is made, and keeps. -/
structure SameOrigin (d d' : Desc) : Prop where
  name : d'.name = d.name
  kind : d'.kind = d.kind
  path : d'.path = d.path
  parent? : d'.parent? = d.parent?
  file? : d'.file? = d.file?

theorem SameOrigin.rfl {d : Desc} : d.SameOrigin d := ⟨.refl _, .refl _, .refl _, .refl _, .refl _⟩

theorem SameOrigin.trans {d₁ d₂ d₃ : Desc} (h₁ : d₁.SameOrigin d₂) (h₂ : d₂.SameOrigin d₃) :
    d₁.SameOrigin d₃ :=
  ⟨h₂.name.trans h₁.name, h₂.kind.trans h₁.kind, h₂.path.trans h₁.path, h₂.parent?.trans h₁.parent?,
    h₂.file?.trans h₁.file?⟩

theorem sitesIn_eq_nil (d : Desc) (document : DocumentId) :
    d.sitesIn document = [] ↔ ∀ site ∈ d.sites, site.element.document ≠ document := by
  simp [sitesIn, List.filter_eq_nil_iff]

theorem sites_without (document : DocumentId) (revision : Nat) (d : Desc) :
    (d.without document revision).sites = d.sites.filter (·.element.document ≠ document) := by
  unfold without
  split
  · rename_i h
    rw [List.isEmpty_iff, sitesIn_eq_nil] at h
    exact (List.filter_eq_self.2 (by simpa using h)).symm
  · rfl

theorem without_eq_self {document : DocumentId} {d : Desc} (h : d.sitesIn document = [])
    (revision : Nat) : d.without document revision = d := by
  simp [without, h]

theorem without_without (document : DocumentId) (revision : Nat) (d : Desc) :
    (d.without document revision).without document revision = d.without document revision := by
  apply without_eq_self
  rw [sitesIn_eq_nil, sites_without]
  intro site hsite
  simpa using (List.mem_filter.1 hsite).2

theorem sameOrigin_without (document : DocumentId) (revision : Nat) (d : Desc) :
    d.SameOrigin (d.without document revision) := by
  unfold without
  split <;> exact ⟨rfl, rfl, rfl, rfl, rfl⟩

theorem sameOrigin_declared (site : Site) (revision : Nat) (d : Desc) :
    d.SameOrigin (d.declared site revision) := by
  unfold declared
  split <;> exact ⟨rfl, rfl, rfl, rfl, rfl⟩

@[simp] theorem children_without (document : DocumentId) (revision : Nat) (d : Desc) :
    (d.without document revision).children = d.children := by
  unfold without
  split <;> rfl

@[simp] theorem live_without (document : DocumentId) (revision : Nat) (d : Desc) :
    (d.without document revision).live = d.live := by
  unfold without
  split <;> rfl

@[simp] theorem children_declared (site : Site) (revision : Nat) (d : Desc) :
    (d.declared site revision).children = d.children := by
  unfold declared
  split <;> rfl

@[simp] theorem live_declared (site : Site) (revision : Nat) (d : Desc) :
    (d.declared site revision).live = d.live := by
  unfold declared
  split <;> rfl

theorem sites_declared (site : Site) (revision : Nat) (d : Desc) :
    (d.declared site revision).sites =
      if d.sites.any (·.element = site.element) then d.sites else d.sites ++ [site] := by
  unfold declared
  split <;> rfl

end Desc

/-- Every desc is still there, and is what it was made as. -/
def Keeps (n n' : Namespace) : Prop :=
  ∀ ⦃id : DescId⦄ ⦃d : Desc⦄, n.descs[id]? = some d →
    ∃ d', n'.descs[id]? = some d' ∧ d.SameOrigin d'

theorem Keeps.rfl {n : Namespace} : n.Keeps n := fun _ _ hd => ⟨_, hd, .rfl⟩

theorem Keeps.trans {n₁ n₂ n₃ : Namespace} (h₁ : n₁.Keeps n₂) (h₂ : n₂.Keeps n₃) : n₁.Keeps n₃ := by
  intro id d hd
  obtain ⟨d₂, hd₂, hs₂⟩ := h₁ hd
  obtain ⟨d₃, hd₃, hs₃⟩ := h₂ hd₂
  exact ⟨d₃, hd₃, hs₂.trans hs₃⟩

/-! ## Notes on changes -/

theorem Changes.touches_iff (c : Changes) (id : DescId) :
    c.touches id = true ↔ id ∈ c.children ∨ id ∈ c.sites ∨ id ∈ c.removed := by
  simp [touches, or_assoc]

theorem Changes.touches_eq_false_iff (c : Changes) (id : DescId) :
    c.touches id = false ↔ id ∉ c.children ∧ id ∉ c.sites ∧ id ∉ c.removed := by
  rw [← Bool.not_eq_true, touches_iff, not_or, not_or]

namespace Edit

@[simp] theorem names_noteChild (e : Edit) (id : DescId) : (e.noteChild id).names = e.names := rfl
@[simp] theorem names_noteSite (e : Edit) (id : DescId) : (e.noteSite id).names = e.names := rfl
@[simp] theorem names_noteRemoved (e : Edit) (id : DescId) : (e.noteRemoved id).names = e.names := rfl

theorem mem_insert_iff {ids : List DescId} {id j : DescId} : j ∈ ids.insert id ↔ j = id ∨ j ∈ ids := by
  simp

theorem descs_modify (e : Edit) (id : DescId) (f : Desc → Desc) (j : DescId) :
    (e.modify id f).names.descs[j]? =
      if id = j then e.names.descs[j]?.map fun d => { f d with changedAt := e.names.revision }
      else e.names.descs[j]? := by
  simp [modify, Array.getElem?_modify]

/-! ## Taking back -/

theorem withdrawSites_eq (document : DocumentId) (e : Edit) (id : DescId) :
    withdrawSites document e id = e ∨
      (∃ d, e.names.descs[id]? = some d ∧ d.sitesIn document ≠ []) ∧
        withdrawSites document e id = (e.modify id fun d =>
          { d with sites := d.sites.filter (·.element.document ≠ document) }).noteSite id := by
  unfold withdrawSites
  split
  · exact .inl rfl
  · rename_i d hd
    split
    · exact .inl rfl
    · rename_i hne
      exact .inr ⟨⟨d, hd, by simpa [List.isEmpty_iff] using hne⟩, rfl⟩

theorem descs_withdrawSites (document : DocumentId) (e : Edit) (id j : DescId) :
    (withdrawSites document e id).names.descs[j]? =
      if id = j then e.names.descs[j]?.map (·.without document e.names.revision)
      else e.names.descs[j]? := by
  unfold withdrawSites
  split
  · rename_i h
    split
    · rename_i hj
      subst hj
      simp [h]
    · rfl
  · rename_i d hd
    split
    · rename_i hs
      split
      · rename_i hj
        subst hj
        rw [hd, Option.map_some, Desc.without_eq_self (by simpa using hs)]
      · rfl
    · rename_i hs
      rw [names_noteSite, descs_modify]
      by_cases hj : id = j
      · subst hj
        simp only [if_true, hd, Option.map_some, Desc.without, if_neg hs]
      · simp [hj]

/-- What taking declarations back leaves alone, and what it notes. -/
structure Withdrawing (document : DocumentId) (e e' : Edit) : Prop where
  revision : e'.names.revision = e.names.revision
  constants : e'.names.constants = e.names.constants
  handles : e'.names.handles = e.names.handles
  documents : e'.names.documents = e.names.documents
  size : e'.names.descs.size = e.names.descs.size
  children : e'.changes.children = e.changes.children
  removed : e'.changes.removed = e.changes.removed
  noConstants : e'.changes.constants = e.changes.constants
  noHandles : e'.changes.handles = e.changes.handles

theorem withdrawing_withdrawSites (document : DocumentId) (e : Edit) (id : DescId) :
    Withdrawing document e (withdrawSites document e id) := by
  obtain h | ⟨-, h⟩ := withdrawSites_eq document e id
  · rw [h]
    constructor <;> rfl
  · rw [h]
    constructor <;> simp [modify, noteSite]

theorem Withdrawing.trans {document : DocumentId} {e₁ e₂ e₃ : Edit}
    (h₁ : Withdrawing document e₁ e₂) (h₂ : Withdrawing document e₂ e₃) :
    Withdrawing document e₁ e₃ :=
  ⟨h₂.revision.trans h₁.revision, h₂.constants.trans h₁.constants, h₂.handles.trans h₁.handles,
    h₂.documents.trans h₁.documents, h₂.size.trans h₁.size, h₂.children.trans h₁.children,
    h₂.removed.trans h₁.removed, h₂.noConstants.trans h₁.noConstants,
    h₂.noHandles.trans h₁.noHandles⟩

theorem withdrawing_foldl (document : DocumentId) (held : List DescId) (e : Edit) :
    Withdrawing document e (held.foldl (withdrawSites document) e) := by
  induction held generalizing e with
  | nil => constructor <;> rfl
  | cons id rest ih => exact (withdrawing_withdrawSites document e id).trans (ih _)

theorem descs_foldl_withdrawSites (document : DocumentId) (held : List DescId) (e : Edit)
    (j : DescId) :
    (held.foldl (withdrawSites document) e).names.descs[j]? =
      if j ∈ held then e.names.descs[j]?.map (·.without document e.names.revision)
      else e.names.descs[j]? := by
  induction held generalizing e with
  | nil => simp
  | cons id rest ih =>
    rw [List.foldl_cons, ih, (withdrawing_withdrawSites document e id).revision, descs_withdrawSites]
    by_cases hj : id = j
    · subst hj
      by_cases hr : id ∈ rest
      · simp only [hr, if_true, List.mem_cons, or_true, Option.map_map]
        congr 1
        funext d
        exact Desc.without_without document e.names.revision d
      · simp [hr]
    · simp [hj, Ne.symm hj]

/-- Every desc with a declaration in the document is noted as changed. -/
theorem mem_sites_foldl_withdrawSites (document : DocumentId) (held : List DescId) (e : Edit)
    {j : DescId} (hj : j ∈ e.changes.sites ∨
      j ∈ held ∧ ∃ d, e.names.descs[j]? = some d ∧ d.sitesIn document ≠ []) :
    j ∈ (held.foldl (withdrawSites document) e).changes.sites := by
  induction held generalizing e with
  | nil => simpa using hj
  | cons id rest ih =>
    apply ih
    obtain heq | ⟨⟨d, hd, hne⟩, heq⟩ := withdrawSites_eq document e id
    · rw [heq]
      rcases hj with hj | ⟨hmem, d, hd, hne⟩
      · exact .inl hj
      rcases List.mem_cons.1 hmem with rfl | hmem
      · have hdescs := descs_withdrawSites document e j j
        rw [heq, if_pos rfl, hd, Option.map_some, Option.some.injEq] at hdescs
        have hsites := Desc.sites_without document e.names.revision d
        rw [← hdescs] at hsites
        refine absurd ?_ hne
        rw [Desc.sitesIn_eq_nil, hsites]
        intro site hsite
        simpa using (List.mem_filter.1 hsite).2
      · exact .inr ⟨hmem, d, hd, hne⟩
    · rw [heq]
      by_cases hji : j = id
      · exact .inl (mem_insert_iff.2 (.inl hji))
      · rcases hj with hj | ⟨hmem, d', hd', hne'⟩
        · exact .inl (mem_insert_iff.2 (.inr hj))
        · refine .inr ⟨(List.mem_cons.1 hmem).resolve_left hji, d', ?_, hne'⟩
          rw [names_noteSite, descs_modify, if_neg (Ne.symm hji), hd']

/-! ## Putting in -/

/-- Makes a child below `parent`, which is `p`. -/
def addChild (e : Edit) (parent : DescId) (p : Desc) (name : String) (kind : DescKind) : Edit :=
  let descs := e.names.descs.push (p.childOf parent name kind e.names.revision)
  let e' : Edit := { e with names := { e.names with descs := descs } }
  (e'.modify parent fun p => { p with children := p.children.put name e.names.descs.size }).noteChild
    parent

theorem ensureChild_of_some {e : Edit} {parent : DescId} {p : Desc}
    (hp : e.names.descs[parent]? = some p) {name : String} {id : DescId}
    (hc : p.children.get? name = some id) (kind : DescKind) :
    e.ensureChild parent name kind = (e, id) := by
  simp [ensureChild, hp, hc]

theorem ensureChild_of_none {e : Edit} {parent : DescId} {p : Desc}
    (hp : e.names.descs[parent]? = some p) {name : String} (hc : p.children.get? name = none)
    (kind : DescKind) :
    e.ensureChild parent name kind = (e.addChild parent p name kind, e.names.descs.size) := by
  simp [ensureChild, hp, hc, addChild]

/-- Declares the child of a name below `scope`. -/
def declareChild (e : Edit) (scope : DescId) (name : String) (kind : DescKind) (site : Site) : Edit :=
  (e.ensureChild scope name kind).1.declare (e.ensureChild scope name kind).2 site

/-- What a declaration below `scope` leaves alone, and what it notes. -/
structure Declaring (e e' : Edit) : Prop where
  revision : e'.names.revision = e.names.revision
  constants : e'.names.constants = e.names.constants
  handles : e'.names.handles = e.names.handles
  documents : e'.names.documents = e.names.documents
  removed : e'.changes.removed = e.changes.removed
  noConstants : e'.changes.constants = e.changes.constants
  noHandles : e'.changes.handles = e.changes.handles

/-- A declaration of a child that is there. -/
structure DeclaringOld (e e' : Edit) (id : DescId) (site : Site) : Prop extends Declaring e e' where
  descs : ∀ j, e'.names.descs[j]? =
    if j = id then e.names.descs[j]?.map (·.declared site e.names.revision) else e.names.descs[j]?
  size : e'.names.descs.size = e.names.descs.size
  children : e'.changes.children = e.changes.children
  sites : ∀ j, j ∈ e'.changes.sites ↔ j = id ∨ j ∈ e.changes.sites

/-- A declaration of a child that has to be made. -/
structure DeclaringNew (e e' : Edit) (scope : DescId) (p : Desc) (name : String) (kind : DescKind)
    (site : Site) : Prop extends Declaring e e' where
  descs : ∀ j, e'.names.descs[j]? =
    if j = e.names.descs.size then
      some { p.childOf scope name kind e.names.revision with sites := [site] }
    else if j = scope then
      e.names.descs[j]?.map (·.withChild name e.names.descs.size e.names.revision)
    else e.names.descs[j]?
  size : e'.names.descs.size = e.names.descs.size + 1
  children : ∀ j, j ∈ e'.changes.children ↔ j = scope ∨ j ∈ e.changes.children
  sites : ∀ j, j ∈ e'.changes.sites ↔ j = e.names.descs.size ∨ j ∈ e.changes.sites

theorem declareChild_old {e : Edit} {scope : DescId} {p : Desc}
    (hp : e.names.descs[scope]? = some p) {name : String} {id : DescId}
    (hc : p.children.get? name = some id) (kind : DescKind) (site : Site) :
    DeclaringOld e (e.declareChild scope name kind site) id site := by
  rw [declareChild, ensureChild_of_some hp hc]
  refine ⟨⟨rfl, rfl, rfl, rfl, rfl, rfl, rfl⟩, ?_, by simp [declare, modify], rfl,
    fun j => mem_insert_iff⟩
  intro j
  rw [declare, names_noteSite, descs_modify]
  by_cases h : id = j
  · subst h
    simp only [if_true]
    rfl
  · simp [h, Ne.symm h]

theorem declareChild_new {e : Edit} {scope : DescId} {p : Desc}
    (hp : e.names.descs[scope]? = some p) {name : String} (hc : p.children.get? name = none)
    (kind : DescKind) (site : Site) :
    DeclaringNew e (e.declareChild scope name kind site) scope p name kind site := by
  rw [declareChild, ensureChild_of_none hp hc]
  have hscope : scope < e.names.descs.size := (Array.getElem?_eq_some_iff.1 hp).1
  refine ⟨⟨rfl, rfl, rfl, rfl, rfl, rfl, rfl⟩, ?_, ?_, fun j => mem_insert_iff,
    fun j => mem_insert_iff⟩
  · intro j
    simp only [declare, names_noteSite, descs_modify, addChild, names_noteChild]
    by_cases h : j = e.names.descs.size
    · subst h
      have hne : scope ≠ e.names.descs.size := Nat.ne_of_lt hscope
      simp [hne, modify, Desc.childOf]
    · rw [if_neg (Ne.symm h), if_neg h]
      simp only [Array.getElem?_push, h, if_false]
      by_cases hs : j = scope
      · simp only [hs, if_true]
        rfl
      · simp [hs, Ne.symm hs]
  · simp [declare, modify, addChild, noteSite, noteChild]

theorem DeclaringOld.keeps {e e' : Edit} {id : DescId} {site : Site}
    (h : DeclaringOld e e' id site) : e.names.Keeps e'.names := by
  intro j d hd
  rw [h.descs, hd]
  split
  · exact ⟨_, rfl, Desc.sameOrigin_declared _ _ _⟩
  · exact ⟨_, rfl, .rfl⟩

section DeclaringNew

variable {e e' : Edit} {scope : DescId} {p : Desc} {name : String} {kind : DescKind} {site : Site}

theorem DeclaringNew.descs_new (h : DeclaringNew e e' scope p name kind site) :
    e'.names.descs[e.names.descs.size]? =
      some { p.childOf scope name kind e.names.revision with sites := [site] } := by
  rw [h.descs, if_pos rfl]

theorem DeclaringNew.descs_scope (h : DeclaringNew e e' scope p name kind site)
    (hp : e.names.descs[scope]? = some p) :
    e'.names.descs[scope]? = some (p.withChild name e.names.descs.size e.names.revision) := by
  have hlt : scope < e.names.descs.size := (Array.getElem?_eq_some_iff.1 hp).1
  rw [h.descs, if_neg (Nat.ne_of_lt hlt), if_pos rfl, hp, Option.map_some]

theorem DeclaringNew.descs_other (h : DeclaringNew e e' scope p name kind site) {j : DescId}
    (hj : j < e.names.descs.size) (hs : j ≠ scope) :
    e'.names.descs[j]? = e.names.descs[j]? := by
  rw [h.descs, if_neg (Nat.ne_of_lt hj), if_neg hs]

/-- The new desc, the one that it is declared below, and all others. -/
theorem DeclaringNew.cases (h : DeclaringNew e e' scope p name kind site)
    (hp : e.names.descs[scope]? = some p) {j : DescId} {d : Desc}
    (hj : e'.names.descs[j]? = some d) :
    (j = e.names.descs.size ∧
      d = { p.childOf scope name kind e.names.revision with sites := [site] }) ∨
    (j = scope ∧ d = p.withChild name e.names.descs.size e.names.revision) ∨
    (j ≠ scope ∧ e.names.descs[j]? = some d) := by
  have hsize : j < e.names.descs.size + 1 := h.size ▸ (Array.getElem?_eq_some_iff.1 hj).1
  by_cases hnew : j = e.names.descs.size
  · subst hnew
    rw [h.descs_new] at hj
    exact .inl ⟨rfl, (Option.some.inj hj).symm⟩
  by_cases hs : j = scope
  · subst hs
    rw [h.descs_scope hp] at hj
    exact .inr (.inl ⟨rfl, (Option.some.inj hj).symm⟩)
  · rw [h.descs_other (Nat.lt_of_le_of_ne (Nat.le_of_lt_succ hsize) hnew) hs] at hj
    exact .inr (.inr ⟨hs, hj⟩)

theorem DeclaringNew.keeps (h : DeclaringNew e e' scope p name kind site)
    (hp : e.names.descs[scope]? = some p) : e.names.Keeps e'.names := by
  intro j d hd
  by_cases hs : j = scope
  · subst hs
    rw [hp] at hd
    cases hd
    exact ⟨_, h.descs_scope hp, rfl, rfl, rfl, rfl, rfl⟩
  · have hlt : j < e.names.descs.size := (Array.getElem?_eq_some_iff.1 hd).1
    exact ⟨d, by rw [h.descs_other hlt hs, hd], .rfl⟩

end DeclaringNew

/-! ## Pruning -/

/-- Lets a desc leave the tree and its parent. -/
def unlink (e : Edit) (id : DescId) (d : Desc) (parent : DescId) : Edit :=
  let descs := e.names.descs.modify id fun d => { d with live := false }
  let e := { e with names := { e.names with descs := descs } }.noteRemoved id
  (e.modify parent fun p => { p with children := p.children.erase d.name }).noteChild parent

theorem climb_eq_unlink {e : Edit} {id parent : DescId} {d : Desc} (hd : e.names.descs[id]? = some d)
    (hl : d.live = true) (hk : d.kind ≠ .root) (hb : d.isBare = true)
    (hp : d.parent? = some parent) (hlt : parent < id) :
    e.climb id = (e.unlink id d parent).climb parent := by
  rw [climb, hd]
  simp [hl, hk, hb, hp, hlt, unlink]

theorem climb_eq_self {e : Edit} {id : DescId}
    (h : ∀ d, e.names.descs[id]? = some d → d.live = true → d.kind ≠ .root → d.isBare = false) :
    e.climb id = e := by
  rw [climb]
  split
  · rfl
  · rename_i d hd
    have := h d hd
    split
    · rename_i hcond
      simp only [ne_eq, Bool.and_eq_true, decide_eq_true_eq] at hcond
      simp [this hcond.1.1 hcond.1.2] at hcond
    · rfl

/-- What letting a desc leave the tree does. -/
structure Unlinking (e e' : Edit) (id : DescId) (d : Desc) (parent : DescId) : Prop where
  descs : ∀ j, e'.names.descs[j]? =
    if j = id then e.names.descs[j]?.map fun d => { d with live := false }
    else if j = parent then e.names.descs[j]?.map (·.withoutChild d.name e.names.revision)
    else e.names.descs[j]?
  size : e'.names.descs.size = e.names.descs.size
  revision : e'.names.revision = e.names.revision
  constants : e'.names.constants = e.names.constants
  handles : e'.names.handles = e.names.handles
  documents : e'.names.documents = e.names.documents
  children : ∀ j, j ∈ e'.changes.children ↔ j = parent ∨ j ∈ e.changes.children
  sites : e'.changes.sites = e.changes.sites
  removed : ∀ j, j ∈ e'.changes.removed ↔ j = id ∨ j ∈ e.changes.removed
  noConstants : e'.changes.constants = e.changes.constants
  noHandles : e'.changes.handles = e.changes.handles

theorem unlinking_unlink (e : Edit) (id : DescId) (d : Desc) {parent : DescId} (h : parent ≠ id) :
    Unlinking e (e.unlink id d parent) id d parent := by
  refine ⟨?_, by simp [unlink, modify, noteChild, noteRemoved], rfl, rfl, rfl, rfl,
    fun j => mem_insert_iff, rfl, fun j => mem_insert_iff, rfl, rfl⟩
  intro j
  simp only [unlink, names_noteChild, descs_modify, names_noteRemoved, Array.getElem?_modify]
  by_cases hj : j = id
  · subst hj
    simp [h]
  · by_cases hp : j = parent
    · subst hp
      simp only [if_true, if_neg (Ne.symm hj), if_neg hj]
      rfl
    · simp [hj, hp, Ne.symm hj, Ne.symm hp]

section Unlinking

variable {e e' : Edit} {id parent : DescId} {d : Desc}

theorem Unlinking.descs_self (h : Unlinking e e' id d parent) (hd : e.names.descs[id]? = some d) :
    e'.names.descs[id]? = some { d with live := false } := by
  rw [h.descs, if_pos rfl, hd, Option.map_some]

theorem Unlinking.descs_parent (h : Unlinking e e' id d parent) (hne : parent ≠ id) {p : Desc}
    (hp : e.names.descs[parent]? = some p) :
    e'.names.descs[parent]? = some (p.withoutChild d.name e.names.revision) := by
  rw [h.descs, if_neg hne, if_pos rfl, hp, Option.map_some]

theorem Unlinking.descs_other (h : Unlinking e e' id d parent) {j : DescId} (hi : j ≠ id)
    (hp : j ≠ parent) : e'.names.descs[j]? = e.names.descs[j]? := by
  rw [h.descs, if_neg hi, if_neg hp]

/-- The desc that leaves, its parent, and all others. -/
theorem Unlinking.cases (h : Unlinking e e' id d parent) (hne : parent ≠ id) {p : Desc}
    (hd : e.names.descs[id]? = some d) (hp : e.names.descs[parent]? = some p) {j : DescId}
    {x : Desc} (hx : e'.names.descs[j]? = some x) :
    (j = id ∧ x = { d with live := false }) ∨
    (j = parent ∧ x = p.withoutChild d.name e.names.revision) ∨
    (j ≠ id ∧ j ≠ parent ∧ e.names.descs[j]? = some x) := by
  by_cases hi : j = id
  · subst hi
    rw [h.descs_self hd] at hx
    exact .inl ⟨rfl, (Option.some.inj hx).symm⟩
  by_cases hj : j = parent
  · subst hj
    rw [h.descs_parent hne hp] at hx
    exact .inr (.inl ⟨rfl, (Option.some.inj hx).symm⟩)
  · rw [h.descs_other hi hj] at hx
    exact .inr (.inr ⟨hi, hj, hx⟩)

theorem Unlinking.keeps (h : Unlinking e e' id d parent) : e.names.Keeps e'.names := by
  intro j x hx
  rw [h.descs, hx]
  split
  · exact ⟨_, rfl, rfl, rfl, rfl, rfl, rfl⟩
  split
  · exact ⟨_, rfl, rfl, rfl, rfl, rfl, rfl⟩
  · exact ⟨_, rfl, .rfl⟩

end Unlinking

end Edit
end Namespace
end UILayout
