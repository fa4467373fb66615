import UILayout.Proofs.Namespace.History
import UILayout.Proofs.Namespace.Path

/-!
# UILayout.Proofs.Namespace.WellFormed

The namespace between edits, as those who read it see it: a tree of names in which all that refers to
a desc finds it.

* `IsTree.fileBelow_eq`: a desc lies in the file at the top of its path.
* `wellFormed_after`: every namespace that comes about by updates is well formed.
-/

namespace UILayout
namespace Namespace

/-- A desc of the tree lists `c` as its child of a name. -/
def ListsChild (n : Namespace) (p : DescId) (name : String) (c : DescId) : Prop :=
  ∃ pd, n.live? p = some pd ∧ (name, c) ∈ pd.children.entries

structure WellFormed (n : Namespace) : Prop where
  root : ∃ d, n.live? Namespace.root = some d ∧ d.parent? = none
  child : ∀ {p c : DescId} {name : String}, n.ListsChild p name c →
    ∃ d, n.live? c = some d ∧ d.name = name ∧ d.parent? = some p
  parent : ∀ {id : DescId} {d : Desc}, n.live? id = some d → id ≠ Namespace.root →
    ∃! p, ∃ name, n.ListsChild p name id
  path : ∀ {id : DescId} {d : Desc}, n.live? id = some d →
    ∃ names, n.path? id = some names ∧ n.follow? Namespace.root names = some id
  file : ∀ {id : DescId} {d : Desc}, n.live? id = some d →
    (d.kind = .file ↔ d.parent? = some Namespace.root)
  /-- A desc lies in the file at the top of its path; a file lies in none. -/
  file? : ∀ {id : DescId} {d : Desc} {names : List String}, n.live? id = some d →
    n.path? id = some names → d.file? = if names.length ≤ 1 then none else names.head?
  declared : ∀ {id : DescId} {d : Desc}, n.live? id = some d → id ≠ Namespace.root → d.sites ≠ []
  declaredAbove : ∀ {id p : DescId} {d : Desc}, n.live? id = some d → d.parent? = some p →
    p ≠ Namespace.root → ∀ site ∈ d.sites, ∃ pd, n.live? p = some pd ∧
      pd.sitesIn site.element.document ≠ []
  handle : ∀ h ∈ n.allHandles, ∃ d, n.live? h.desc = some d
  declared? : ∀ {r : ElementRef} {id : DescId}, n.declared? r = some id → ∃ d, n.live? id = some d
  scope? : ∀ {r : ElementRef} {id : DescId}, n.scope? r = some id → ∃ d, n.live? id = some d

section

variable {n : Namespace}

namespace IsTree

theorem live_of_listsChild (h : IsTree n) {p c : DescId} {name : String}
    (hc : n.ListsChild p name c) : ∃ d, n.live? c = some d ∧ d.name = name ∧ d.parent? = some p := by
  obtain ⟨pd, hpd, hmem⟩ := hc
  exact h.live_child hpd
    (OrderedMap.get?_of_mem (h.distinct (live?_eq_some_iff.1 hpd).1) hmem)

theorem existsUnique_parent (h : IsTree n) {id : DescId} {d : Desc} (hd : n.live? id = some d)
    (hroot : id ≠ Namespace.root) : ∃! p, ∃ name, n.ListsChild p name id := by
  obtain ⟨p, pd, hpd, hb, hget⟩ := h.live_parent hd hroot
  refine ⟨p, ⟨d.name, pd, hpd, OrderedMap.mem_of_get? hget⟩, ?_⟩
  rintro q ⟨name, hq⟩
  obtain ⟨d', hd', -, hpar⟩ := h.live_of_listsChild hq
  rw [hd] at hd'
  cases hd'
  rw [hb.parent?] at hpar
  exact (Option.some.inj hpar).symm

theorem kind_eq_file_iff (h : IsTree n) {id : DescId} {d : Desc} (hd : n.live? id = some d) :
    d.kind = .file ↔ d.parent? = some Namespace.root := by
  by_cases hroot : id = Namespace.root
  · subst hroot
    obtain ⟨r, hr, hk, hp, -⟩ := h.root
    rw [(live?_eq_some_iff.1 hd).1] at hr
    cases hr
    simp [hk, hp]
  · obtain ⟨p, pd, -, hb, -⟩ := h.live_parent hd hroot
    rw [hb.kind_iff, hb.parent?, Option.some.injEq]

/-- A desc takes its file over from its parent; what lies below it takes over the first name of its
path. -/
theorem fileBelow_eq (h : IsTree n) {id : DescId} {d : Desc} {path : List String}
    (hd : n.live? id = some d) (hpath : n.path? id = some path) :
    d.fileBelow = path.head? ∧ d.file? = if path.length ≤ 1 then none else path.head? := by
  refine h.path?_induct (P := fun _ d path =>
    d.fileBelow = path.head? ∧ d.file? = if path.length ≤ 1 then none else path.head?) ?_ ?_ hd hpath
  · intro d hd
    obtain ⟨r, hr, hk, -, -, hf⟩ := h.root
    rw [(live?_eq_some_iff.1 hd).1] at hr
    cases hr
    exact ⟨by rw [Desc.fileBelow, hk]; rfl, by rw [hf]; rfl⟩
  · intro p id pd d above hd hb _ habove ih
    obtain ⟨hbelow, -⟩ := ih
    have hfile : d.file? = above.head? := by rw [hb.file?, hbelow]
    by_cases hk : d.kind = .file
    · have hp : p = Namespace.root := hb.kind_iff.1 hk
      subst hp
      rw [h.path?_root] at habove
      cases habove
      exact ⟨by rw [Desc.fileBelow, hk]; rfl, by rw [hfile]; rfl⟩
    · have hne : above ≠ [] := by
        rintro rfl
        exact hk (hb.kind_iff.2 (h.path?_injective habove h.path?_root))
      obtain ⟨top, more, rfl⟩ := List.exists_cons_of_ne_nil hne
      have hfb : d.fileBelow = d.file? := by
        have hkr := hb.kind_ne
        unfold Desc.fileBelow
        cases hd' : d.kind <;> simp_all
      rw [hfb, hfile]
      simp

end IsTree

namespace Settled

theorem declared_above (h : Settled n) {id p : DescId} {d : Desc} {site : Site}
    (hd : n.live? id = some d) (hp : d.parent? = some p) (hroot : p ≠ Namespace.root)
    (hs : site ∈ d.sites) :
    ∃ pd, n.live? p = some pd ∧ pd.sitesIn site.element.document ≠ [] := by
  obtain ⟨pd, hpd, s, hs', hdoc⟩ := h.anchored.parent (live?_eq_some_iff.1 hd).1 hs hp hroot
  refine ⟨pd, live?_eq_some_iff.2 ⟨hpd, h.anchored.live hpd (List.ne_nil_of_mem hs')⟩, ?_⟩
  exact List.ne_nil_of_mem (List.mem_filter.2 ⟨hs', by simpa using hdoc⟩)

theorem live_handle (h : Settled n) {x : Handle} (hx : x ∈ n.allHandles) :
    ∃ d, n.live? x.desc = some d := by
  obtain ⟨values, hv, hmem⟩ := List.mem_flatten.1 hx
  obtain ⟨name, hget⟩ := (OrderedMap.mem_values_iff h.handles.distinct values).1 hv
  exact (h.anchored.handle ⟨values, hget, hmem⟩).live h.anchored

theorem live_scope? (h : Settled n) {r : ElementRef} {id : DescId} (hr : n.scope? r = some id) :
    ∃ d, n.live? id = some d := by
  obtain ⟨pl, hpl, rfl⟩ := Option.map_eq_some_iff.1 hr
  exact (h.hasSite_place hpl).1.live h.anchored

theorem live_declared? (h : Settled n) {r : ElementRef} {id : DescId}
    (hr : n.declared? r = some id) : ∃ d, n.live? id = some d :=
  (h.hasSite_declared hr).live h.anchored

end Settled

end

theorem wellFormed_after (history : List Update) : WellFormed (after history) := by
  have h := settled_after history
  refine ⟨h.tree.live_root, h.tree.live_of_listsChild, h.tree.existsUnique_parent, ?_,
    h.tree.kind_eq_file_iff, fun hd hn => (h.tree.fileBelow_eq hd hn).2, ?_,
    fun hd hp hroot _ => h.declared_above hd hp hroot, fun _ => h.live_handle, h.live_declared?,
    h.live_scope?⟩
  · intro id d hd
    obtain ⟨names, hnames⟩ := h.tree.exists_path hd
    exact ⟨names, hnames, h.tree.follow?_of_path? hnames⟩
  · intro id d hd hroot
    obtain ⟨hid, hl⟩ := live?_eq_some_iff.1 hd
    exact h.declared hid hl hroot

end Namespace
end UILayout
