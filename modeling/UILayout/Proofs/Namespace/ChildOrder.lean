import UILayout.Proofs.Namespace.Resync

/-!
# UILayout.Proofs.Namespace.ChildOrder

The order of the children of a desc that one document declares. When the document changes, names that
stay keep their order from before, and new names come behind them in the order of the document. So the
children follow the document unless names that stay have changed places, or stand behind new ones.

* `eq_listed_iff`: when the names are in the order of the document.
* `Settled.namesAt_sync`: the children after the document has changed.
-/

namespace UILayout
namespace Namespace

open Schema Markup

/-! ## Lists of names -/

/-- The names of a document, those that were there before in their old order and first. -/
def keptOrder (before listed : List String) : List String :=
  before.filter (· ∈ listed) ++ listed.filter (· ∉ before)

theorem nodup_foldl_addName {names : List String} (h : names.Nodup) (more : List String) :
    (more.foldl addName names).Nodup := by
  induction more generalizing names with
  | nil => exact h
  | cons name rest ih =>
    refine ih ?_
    unfold addName
    split
    · exact h
    · rename_i hname
      exact List.nodup_append.2 ⟨h, by simp, fun x hx y hy heq =>
        hname (List.mem_singleton.1 hy ▸ heq ▸ hx)⟩

theorem mem_foldl_addName {names more : List String} {x : String} :
    x ∈ more.foldl addName names ↔ x ∈ names ∨ x ∈ more := by
  induction more generalizing names with
  | nil => simp
  | cons name rest ih =>
    rw [List.foldl_cons, ih, addName, List.mem_cons]
    split
    · rename_i hname
      constructor
      · rintro (hx | hx)
        · exact .inl hx
        · exact .inr (.inr hx)
      · rintro (hx | rfl | hx)
        · exact .inl hx
        · exact .inl hname
        · exact .inr hx
    · rw [List.mem_append, List.mem_singleton, or_assoc]

/-- Names that are new come behind, in the order in which they are met first. -/
theorem foldl_addName_eq (names more : List String) :
    more.foldl addName names = names ++ (more.foldl addName []).filter (· ∉ names) := by
  induction more using List.reverseRecOn with
  | nil => simp
  | append_singleton rest name ih =>
    rw [List.foldl_append, List.foldl_append, ih]
    simp only [List.foldl_cons, List.foldl_nil]
    by_cases hrest : name ∈ rest.foldl addName []
    · have hin : name ∈ names ++ (rest.foldl addName []).filter (· ∉ names) := by
        rw [← ih, mem_foldl_addName]
        exact .inr (by simpa using mem_foldl_addName.1 hrest)
      rw [addName, if_pos hin, addName, if_pos hrest]
    · rw [addName, addName, if_neg hrest, List.filter_append]
      by_cases hname : name ∈ names
      · simp [hname]
      · simp [hname, hrest]

/-- A part of a list without repetition is what the list has of it. -/
theorem filter_mem_of_sublist {xs ys : List String} (h : xs.Sublist ys) (hys : ys.Nodup) :
    ys.filter (· ∈ xs) = xs := by
  induction h with
  | slnil => rfl
  | @cons xs ys y h ih =>
    obtain ⟨hy, hys⟩ := List.nodup_cons.1 hys
    rw [List.filter_cons_of_neg (by simpa using fun hmem => hy (h.subset hmem)), ih hys]
  | @cons_cons xs ys y h ih =>
    obtain ⟨hy, hys⟩ := List.nodup_cons.1 hys
    have hrest : ys.filter (· ∈ y :: xs) = ys.filter (· ∈ xs) := by
      refine List.filter_congr fun x hx => ?_
      have hne : x ≠ y := by
        rintro rfl
        exact hy hx
      simp [hne]
    rw [List.filter_cons_of_pos (by simp), hrest, ih hys]

/-- The names are in the order of the document just when those that stay come first there, in the
order that they had before. Only the names that pass a test are looked at. -/
theorem eq_listed_iff {before listed : List String} (hlisted : listed.Nodup) (p : String → Bool) :
    (keptOrder before listed).filter p = listed.filter p ↔
      before.filter (fun x => x ∈ listed && p x) <+: listed.filter p := by
  have hstay : (before.filter (· ∈ listed)).filter p = before.filter fun x => x ∈ listed && p x := by
    rw [List.filter_filter]
    exact List.filter_congr fun x _ => Bool.and_comm _ _
  rw [keptOrder, List.filter_append, hstay]
  constructor
  · intro h
    rw [← h]
    exact List.prefix_append _ _
  · rintro ⟨rest, hrest⟩
    have hnodup : (before.filter (fun x => x ∈ listed && p x) ++ rest).Nodup := by
      rw [hrest]
      exact hlisted.filter _
    -- what comes behind the names that stay is new, as no name is listed twice
    have hnew : rest.filter (· ∉ before) = rest := by
      refine List.filter_eq_self.2 fun x hx => decide_eq_true fun hbefore => ?_
      have hin : x ∈ listed.filter p := hrest ▸ List.mem_append_right _ hx
      have hstays : x ∈ before.filter fun x => x ∈ listed && p x := by
        obtain ⟨hl, hp⟩ := List.mem_filter.1 hin
        exact List.mem_filter.2 ⟨hbefore, by simp [hl, hp]⟩
      exact (List.nodup_append.1 hnodup).2.2 x hstays x hx rfl
    have hold : (before.filter fun x => x ∈ listed && p x).filter (· ∉ before) = [] := by
      rw [List.filter_eq_nil_iff]
      intro x hx
      simpa using (List.mem_filter.1 hx).1
    have hbehind : (listed.filter (· ∉ before)).filter p = rest := by
      rw [List.filter_comm, ← hrest, List.filter_append, hold, hnew, List.nil_append]
    rw [hbehind, hrest]

/-! ## Children -/

/-- The names that are declared right below a path, in the order of their first declarations. -/
def Listing.declaredBelow (l : Listing) (path : List String) : List String :=
  (l.namesBelow path).foldl addName []

theorem Listing.nodup_declaredBelow (l : Listing) (path : List String) :
    (l.declaredBelow path).Nodup :=
  nodup_foldl_addName .nil _

theorem Listing.mem_declaredBelow {l : Listing} {path : List String} {name : String} :
    name ∈ l.declaredBelow path ↔ ∃ site, (path ++ [name], site) ∈ l.sites := by
  rw [declaredBelow, mem_foldl_addName, namesBelow, List.mem_filterMap]
  simp only [List.not_mem_nil, false_or]
  constructor
  · rintro ⟨⟨other, site⟩, hmem, hbelow⟩
    cases other using List.reverseRecOn with
    | nil => simp [below?] at hbelow
    | append_singleton above last =>
      rw [below?_append] at hbelow
      split at hbelow
      · rename_i habove
        cases hbelow
        exact ⟨site, habove ▸ hmem⟩
      · cases hbelow
  · rintro ⟨site, hmem⟩
    exact ⟨_, hmem, by rw [below?_append, if_pos rfl]⟩

/-- A document declares a desc, and no other document does. -/
def DeclaredOnlyIn (d : Desc) (document : DocumentId) : Prop :=
  d.sites ≠ [] ∧ ∀ site ∈ d.sites, site.element.document = document

section

variable {n : Namespace} {s : Schema} {doc : Document}

theorem mem_namesAt_iff (hn : IsTree n) {id : DescId} {path : List String} (hp : n.path? id = some path)
    (name : String) : name ∈ n.namesAt id ↔ ∃ child, n.path? child = some (path ++ [name]) := by
  obtain ⟨d, hd⟩ := live_of_path? hp
  rw [namesAt_of_descs (live?_eq_some_iff.1 hd).1, OrderedMap.mem_keys_iff]
  constructor
  · rintro ⟨child, hchild⟩
    exact ⟨child, hn.path?_child hp (by rw [child?, hd, Option.bind_some, hchild])⟩
  · rintro ⟨child, hchild⟩
    have hfollow := hn.follow?_of_path? hchild
    rw [follow?_append, hn.follow?_of_path? hp, Option.bind_some, follow?] at hfollow
    obtain ⟨found, hfound, -⟩ := Option.bind_eq_some_iff.1 hfollow
    rw [child?, hd, Option.bind_some] at hfound
    exact ⟨found, hfound⟩

/-- Below a desc that only one document declares there are the names that the document lists. -/
theorem Mirrors.mem_namesAt_iff (hm : Mirrors n s doc) (hn : Settled n) {id : DescId} {d : Desc}
    {path : List String} (hd : n.live? id = some d) (hp : n.path? id = some path)
    (hown : DeclaredOnlyIn d doc.id) (name : String) :
    name ∈ n.namesAt id ↔ name ∈ (listing s doc).declaredBelow path := by
  obtain ⟨hne, hall⟩ := hown
  have hid := (live?_eq_some_iff.1 hd).1
  have hroot : id ≠ Namespace.root := by
    rintro rfl
    exact hne (hn.anchored.root hid)
  rw [Namespace.mem_namesAt_iff hn.tree hp, Listing.mem_declaredBelow]
  constructor
  · rintro ⟨child, hchild⟩
    obtain ⟨x, hx⟩ := live_of_path? hchild
    obtain ⟨hxid, hxl⟩ := live?_eq_some_iff.1 hx
    have hxroot : child ≠ Namespace.root := by
      rintro rfl
      rw [hn.tree.path?_root] at hchild
      simp at hchild
    obtain ⟨site, hsite⟩ := List.exists_mem_of_ne_nil _ (hn.declared hxid hxl hxroot)
    obtain ⟨p, pd, -, hb, -⟩ := hn.tree.live_parent hx hxroot
    -- the document of the child declares the desc above it, too
    have habove : p = id := by
      have hpath := path?_below hx hb
      rw [hchild] at hpath
      obtain ⟨above, habove, heq⟩ := Option.map_eq_some_iff.1 hpath.symm
      exact hn.tree.path?_injective habove ((List.append_inj' heq rfl).1 ▸ hp)
    subst habove
    obtain ⟨d', hd', other, hother, hdoc⟩ := hn.anchored.parent hxid hsite hb.parent? hroot
    rw [hid] at hd'
    cases hd'
    have hsame : site.element.document = doc.id := hdoc.symm.trans (hall other hother)
    exact ⟨site, (hm (.site _ site) (congrArg some hsame)).1 ⟨child, x, hx, hchild, hsite⟩⟩
  · rintro ⟨site, hsite⟩
    have hdoc := (listing_within s doc).standsIn.sites _ hsite
    obtain ⟨child, -, -, hchild, -⟩ := (hm (.site _ site) (congrArg some hdoc)).2 hsite
    exact ⟨child, hchild⟩

theorem nodup_namesAt (hn : IsTree n) (id : DescId) : (n.namesAt id).Nodup := by
  cases hd : n.descs[id]? with
  | none =>
    rw [namesAt, hd]
    exact .nil
  | some d =>
    rw [namesAt_of_descs hd]
    exact hn.distinct hd

/-- The children of a desc that only one document declares, after the document has changed. -/
theorem Settled.namesAt_sync (hn : Settled n) {id : DescId} {d : Desc} {path : List String}
    (hd : (n.sync s doc).names.live? id = some d)
    (hp : (n.sync s doc).names.path? id = some path) (hown : DeclaredOnlyIn d doc.id) :
    (n.sync s doc).names.namesAt id =
      keptOrder (n.namesAt id) ((listing s doc).declaredBelow path) := by
  have hsettled : Settled (n.sync s doc).names := (hn.update (.sync s doc)).2
  have hsub : ((n.sync s doc).names.namesAt id).Sublist
      (((listing s doc).namesBelow path).foldl addName (n.namesAt id)) :=
    hn.namesAt_edit (.sync s doc) hp
  -- all that the updates add is in its place, and what the document does not list is pruned
  have hlisted : ∀ x, decide (x ∈ (n.sync s doc).names.namesAt id) =
      decide (x ∈ (listing s doc).declaredBelow path) := fun x =>
    decide_eq_decide.2 ((hn.mirrors_sync s doc).mem_namesAt_iff hsettled hd hp hown x)
  have hnew : ((listing s doc).declaredBelow path).filter (· ∉ n.namesAt id) =
      (((listing s doc).declaredBelow path).filter (· ∉ n.namesAt id)).filter
        (· ∈ (listing s doc).declaredBelow path) :=
    (List.filter_eq_self.2 fun x hx => decide_eq_true (List.mem_of_mem_filter hx)).symm
  rw [← filter_mem_of_sublist hsub (nodup_foldl_addName (nodup_namesAt hn.tree id) _),
    List.filter_congr fun x _ => hlisted x, foldl_addName_eq, List.filter_append, keptOrder, hnew,
    Listing.declaredBelow]

end

end Namespace
end UILayout
