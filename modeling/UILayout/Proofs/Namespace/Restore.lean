import UILayout.Proofs.Namespace.Kind

/-!
# UILayout.Proofs.Namespace.Restore

Taking a document out undoes putting it in. While a document is in a namespace, all that it has put in
stands behind what was there before: new declarations behind the old ones, new children behind the old
ones, new names in the registers behind the old ones. So what is left when the document is gone is what
was there before, in its order.

* `Extends.step`, `Extends.withdrawn`, `Extends.unlinks`: each part of an edit that is about the
  document keeps the old in front.
* `Extends.restored`: when the document is taken out, the old is all that is left.
* `restored_remove_sync`: putting a document in and taking it out restores the namespace.
-/

namespace UILayout
namespace Namespace

open Schema Markup

/-- A desc without the revision that it was changed in. -/
def Desc.undated (d : Desc) : Desc := { d with changedAt := 0 }

/-- `r` reads like `n`, apart from the revisions in which its descs were changed. -/
structure Restored (n r : Namespace) : Prop where
  live : ∀ id, (r.live? id).map Desc.undated = (n.live? id).map Desc.undated
  constants : r.constants = n.constants
  handles : r.handles = n.handles
  declared? : ∀ element, r.declared? element = n.declared? element
  scope? : ∀ element, r.scope? element = n.scope? element

/-- What a desc becomes while a document is in the namespace: its declarations in the document and the
children that are new come last. -/
structure Desc.Extended (document : DocumentId) (size : Nat) (d d' : Desc) : Prop where
  origin : d.SameOrigin d'
  children : ∃ more, d'.children.entries = d.children.entries ++ more ∧ ∀ e ∈ more, size ≤ e.2
  sites : d'.sites.filter (·.element.document ≠ document) = d.sites

/-- `m` is `n` with something of a document put in. -/
structure Extends (document : DocumentId) (n m : Namespace) : Prop where
  live : ∀ {id : DescId} {d : Desc}, n.live? id = some d →
    ∃ d', m.live? id = some d' ∧ d.Extended document n.descs.size d'
  stays : ∀ {id : DescId} {d d' : Desc}, n.descs[id]? = some d → m.live? id = some d' →
    n.live? id = some d
  created : ∀ {id : DescId} {d : Desc}, n.descs[id]? = none → m.descs[id]? = some d →
    ∀ site ∈ d.sites, site.element.document = document
  size : n.descs.size ≤ m.descs.size
  constants : Edit.dropFrom (·.site) document m.constants = n.constants
  handles : Edit.dropFrom (·.site) document m.handles = n.handles

namespace Desc.Extended

variable {document : DocumentId} {size revision : Nat} {d d' : Desc}

theorem refl (size : Nat) (h : d.sitesIn document = []) : d.Extended document size d := by
  refine ⟨.rfl, ⟨[], by simp, nofun⟩, List.filter_eq_self.2 fun site hs => ?_⟩
  simpa using (d.sitesIn_eq_nil document).1 h site hs

theorem without (h : d.Extended document size d') :
    d.Extended document size (d'.without document revision) := by
  refine ⟨h.origin.trans (sameOrigin_without _ _ _), ?_, ?_⟩
  · rw [children_without]
    exact h.children
  · rw [sites_without, List.filter_filter]
    simpa using h.sites

theorem declared (h : d.Extended document size d') {site : Site}
    (hsite : site.element.document = document) :
    d.Extended document size (d'.declared site revision) := by
  refine ⟨h.origin.trans (sameOrigin_declared _ _ _), ?_, ?_⟩
  · rw [children_declared]
    exact h.children
  · rw [sites_declared]
    split
    · exact h.sites
    · rw [List.filter_append, h.sites]
      simp [hsite]

theorem withChild (h : d.Extended document size d') {name : String} {id : DescId}
    (hfree : d'.children.get? name = none) (hid : size ≤ id) :
    d.Extended document size (d'.withChild name id revision) := by
  obtain ⟨more, hentries, hmore⟩ := h.children
  refine ⟨h.origin.trans ⟨rfl, rfl, rfl, rfl, rfl⟩, ⟨more ++ [(name, id)], ?_, ?_⟩, h.sites⟩
  · rw [Desc.withChild, OrderedMap.entries_put_of_get?_none hfree, hentries, List.append_assoc]
  · intro e he
    rcases List.mem_append.1 he with he | he
    · exact hmore e he
    · rw [List.mem_singleton.1 he]
      exact hid

/-- A child that is new leaves no gap among the old ones. -/
theorem withoutChild (h : d.Extended document size d') {name : String} {id : DescId}
    (hkeys : d'.children.keys.Nodup) (hold : ∀ e ∈ d.children.entries, e.2 < size)
    (hchild : d'.children.get? name = some id) (hid : size ≤ id) :
    d.Extended document size (d'.withoutChild name revision) := by
  obtain ⟨more, hentries, hmore⟩ := h.children
  refine ⟨h.origin.trans ⟨rfl, rfl, rfl, rfl, rfl⟩, ⟨more.filter (·.1 ≠ name), ?_, ?_⟩, h.sites⟩
  · have hstay : d.children.entries.filter (·.1 ≠ name) = d.children.entries := by
      refine List.filter_eq_self.2 fun e he => ?_
      have hne : e.1 ≠ name := by
        rintro rfl
        have hget := OrderedMap.get?_of_mem hkeys (hentries ▸ List.mem_append_left more he)
        rw [hchild] at hget
        have hlt := hold e he
        rw [← Option.some.inj hget] at hlt
        exact absurd hlt (Nat.not_lt.2 hid)
      simpa using hne
    rw [Desc.withoutChild, OrderedMap.erase, hentries, List.filter_append, hstay]
  · intro e he
    exact hmore e (List.mem_of_mem_filter he)

/-- A desc to which nothing was added is what it was. -/
theorem undated_eq (h : d.Extended document size d') (hlive : d'.live = d.live)
    (hchildren : ∀ e ∈ d'.children.entries, e.2 < size)
    (hsites : ∀ site ∈ d'.sites, site.element.document ≠ document) : d'.undated = d.undated := by
  obtain ⟨more, hentries, hmore⟩ := h.children
  have hnone : more = [] := by
    refine List.eq_nil_iff_forall_not_mem.2 fun e he => ?_
    have hlt := hchildren e (hentries ▸ List.mem_append_right _ he)
    exact absurd hlt (Nat.not_lt.2 (hmore e he))
  have hsame : d'.sites = d.sites := by
    rw [← h.sites, List.filter_eq_self.2]
    simpa using hsites
  have hmaps : d'.children = d.children := by
    rw [hnone, List.append_nil] at hentries
    exact congrArg OrderedMap.mk hentries
  obtain ⟨hname, hkind, hpath, hparent, hfile⟩ := h.origin
  obtain ⟨⟩ := d
  obtain ⟨⟩ := d'
  simp_all [undated]

end Desc.Extended

section

variable {document : DocumentId} {n m : Namespace}

/-! ## Registers and what is filed -/

theorem Unlinks.registers {e e' : Edit} (h : Unlinks e e') :
    e'.names.constants = e.names.constants ∧ e'.names.handles = e.names.handles ∧
      e'.names.documents = e.names.documents := by
  induction h with
  | refl => exact ⟨rfl, rfl, rfl⟩
  | step _ _ _ _ hu _ ih =>
    exact ⟨ih.1.trans hu.constants, ih.2.1.trans hu.handles, ih.2.2.trans hu.documents⟩

/-- What an update leaves filed: for its own document something whenever one of its constants is
registered, and for the others what there was. -/
theorem Settled.filed_edit (hn : Settled n) (u : Update) :
    (∀ {other : DocumentId}, other ≠ u.document →
      (u.edit n).names.documents.get? other = n.documents.get? other) ∧
    ∀ {name : String} {c : Constant}, Lists (u.edit n).names.constants name c →
      c.site.document = u.document → ∃ k, (u.edit n).names.documents.get? u.document = some k := by
  have hw := withdrawn_spec hn.anchored u.document
  obtain ⟨hconstants, -, hdocuments⟩ := (hn.update u).1.registers
  rw [hconstants, hdocuments]
  have hold : ∀ {other : DocumentId}, other ≠ u.document →
      (n.withdrawn u.document).names.documents.get? other = n.documents.get? other := by
    intro other hne
    rw [hw.documents, OrderedMap.get?_erase, if_neg hne]
  have hnone : ∀ {name : String} {c : Constant},
      Lists (n.withdrawn u.document).names.constants name c → c.site.document ≠ u.document := by
    intro name c hc
    rw [hw.constants, lists_dropFrom hn.constants.distinct] at hc
    exact hc.2
  cases u with
  | remove document => exact ⟨hold, fun hc hdoc => absurd hdoc (hnone hc)⟩
  | sync s doc =>
    rcases Edit.enter_cases s doc (n.withdrawn doc.id) with ⟨-, heq⟩ | ⟨root, el, -, hel, -, heq⟩
    · rw [Update.entered, heq]
      exact ⟨hold, fun hc hdoc => absurd hdoc (hnone hc)⟩
    · rw [Update.entered, heq]
      obtain ⟨hu, -⟩ := hn.entering s hel (P := fun _ => True) trivial fun _ _ _ _ _ => trivial
      constructor
      · intro other hne
        have hfiled : other ≠ doc.id := hne
        rw [Edit.file, OrderedMap.get?_put, if_neg hfiled, hu.documents, OrderedMap.get?_erase,
          if_neg hfiled]
      · intro name c _ _
        exact ⟨_, by rw [Update.document, Edit.file, OrderedMap.get?_put, if_pos rfl]⟩

/-- A document that has registered a constant is filed. -/
theorem filed_of_constant (history : List Update) {name : String} {c : Constant}
    (h : Lists (after history).constants name c) :
    ∃ k, (after history).documents.get? c.site.document = some k := by
  induction history using List.reverseRecOn with
  | nil =>
    obtain ⟨_, hget, -⟩ := h
    cases hget
  | append_singleton history u ih =>
    have hn := settled_after history
    obtain ⟨hothers, hown⟩ := hn.filed_edit u
    rw [after_append] at h ⊢
    by_cases hdoc : c.site.document = u.document
    · rw [hdoc]
      exact hown h hdoc
    · rw [hothers hdoc]
      exact ih (((hn.sameIn u hdoc).constants rfl).1 h)

theorem Lists.dropFrom_eq_self {α : Type} {nameOf : α → String} {site : α → ElementRef}
    {document : DocumentId} {m : NameMap (List α)} (hm : IsRegister nameOf m)
    (h : ∀ {name value}, Lists m name value → (site value).document ≠ document) :
    Edit.dropFrom site document m = m := by
  refine Namespace.dropFrom_eq_self hm ?_
  rw [← Bool.not_eq_true, Edit.anyFrom, List.any_eq_true]
  rintro ⟨values, hvalues, hany⟩
  obtain ⟨value, hvalue, hdoc⟩ := List.any_eq_true.1 hany
  obtain ⟨name, hget⟩ := (OrderedMap.mem_values_iff hm.distinct values).1 hvalues
  exact h ⟨values, hget, hvalue⟩ (by simpa using hdoc)

/-! ## The old in front -/

theorem Settled.extends_self (hn : Settled n) (hnone : n.documents.get? document = none)
    (hconstants : ∀ {name : String} {c : Constant}, Lists n.constants name c →
      c.site.document ≠ document) : Extends document n n := by
  have hsites : ∀ {id : DescId} {d : Desc} {site : Site}, n.descs[id]? = some d → site ∈ d.sites →
      site.element.document ≠ document := by
    rintro id d site hd hs rfl
    obtain ⟨c, hc, -⟩ := hn.anchored.held hd hs
    rw [hnone] at hc
    cases hc
  refine ⟨?_, ?_, ?_, Nat.le_refl _, Lists.dropFrom_eq_self hn.constants hconstants,
    Lists.dropFrom_eq_self hn.handles ?_⟩
  · intro id d hd
    refine ⟨d, hd, .refl _ ((d.sitesIn_eq_nil document).2 fun site hs => ?_)⟩
    exact hsites (live?_eq_some_iff.1 hd).1 hs
  · intro id d d' hd hd'
    obtain ⟨hid, hl⟩ := live?_eq_some_iff.1 hd'
    rw [hd] at hid
    cases hid
    exact hd'
  · intro id d hold hnew
    rw [hold] at hnew
    cases hnew
  · intro name x hx
    obtain ⟨d, hd, site, hs, hdoc⟩ := hn.anchored.handle hx
    exact hdoc ▸ hsites hd hs

namespace Extends

theorem withdrawn (h : Extends document n m) {e : Edit} (hw : Withdrawn m document e) :
    Extends document n e.names := by
  refine ⟨?_, ?_, ?_, by rw [hw.size]; exact h.size, ?_, ?_⟩
  · intro id d hd
    obtain ⟨d', hd', hext⟩ := h.live hd
    obtain ⟨hid, hl⟩ := live?_eq_some_iff.1 hd'
    refine ⟨_, live?_eq_some_iff.2 ⟨by rw [hw.descs, hid]; rfl, ?_⟩, hext.without⟩
    rw [Desc.live_without, hl]
  · intro id d d' hd hd'
    obtain ⟨hid, hl⟩ := live?_eq_some_iff.1 hd'
    obtain ⟨d₀, hd₀, rfl⟩ := hw.cases hid
    rw [Desc.live_without] at hl
    exact h.stays hd (live?_eq_some_iff.2 ⟨hd₀, hl⟩)
  · intro id d hold hnew site hs
    obtain ⟨d₀, hd₀, rfl⟩ := hw.cases hnew
    rw [Desc.sites_without] at hs
    exact h.created hold hd₀ site (List.mem_of_mem_filter hs)
  · rw [hw.constants, dropFrom_dropFrom, h.constants]
  · rw [hw.handles, dropFrom_dropFrom, h.handles]

theorem declareOld {e e' : Edit} (h : Extends document n e.names) {id : DescId} {site : Site}
    (hsite : site.element.document = document) (hd : Edit.DeclaringOld e e' id site) :
    Extends document n e'.names := by
  have hlive : ∀ {j : DescId} {x : Desc}, e.names.live? j = some x → ∃ x', e'.names.live? j = some x' ∧
      (x' = x ∨ x' = x.declared site e.names.revision) := by
    intro j x hx
    obtain ⟨hj, hl⟩ := live?_eq_some_iff.1 hx
    by_cases hid : j = id
    · refine ⟨_, live?_eq_some_iff.2 ⟨by rw [hd.descs, if_pos hid, hj]; rfl, ?_⟩, .inr rfl⟩
      rw [Desc.live_declared, hl]
    · exact ⟨x, live?_eq_some_iff.2 ⟨by rw [hd.descs, if_neg hid, hj], hl⟩, .inl rfl⟩
  have hcases : ∀ {j : DescId} {x' : Desc}, e'.names.descs[j]? = some x' →
      ∃ x, e.names.descs[j]? = some x ∧ (x' = x ∨ x' = x.declared site e.names.revision) := by
    intro j x' hx'
    rw [hd.descs] at hx'
    split at hx'
    · obtain ⟨x, hx, rfl⟩ := Option.map_eq_some_iff.1 hx'
      exact ⟨x, hx, .inr rfl⟩
    · exact ⟨x', hx', .inl rfl⟩
  refine ⟨?_, ?_, ?_, by rw [hd.size]; exact h.size, ?_, ?_⟩
  · intro j x hx
    obtain ⟨x₁, hx₁, hext⟩ := h.live hx
    obtain ⟨x', hx', rfl | rfl⟩ := hlive hx₁
    · exact ⟨x', hx', hext⟩
    · exact ⟨_, hx', hext.declared hsite⟩
  · intro j x x' hx hx'
    obtain ⟨hj, hl⟩ := live?_eq_some_iff.1 hx'
    obtain ⟨x₁, hx₁, rfl | rfl⟩ := hcases hj
    · exact h.stays hx (live?_eq_some_iff.2 ⟨hx₁, hl⟩)
    · rw [Desc.live_declared] at hl
      exact h.stays hx (live?_eq_some_iff.2 ⟨hx₁, hl⟩)
  · intro j x' hold hnew s hs
    obtain ⟨x₁, hx₁, rfl | rfl⟩ := hcases hnew
    · exact h.created hold hx₁ s hs
    · rcases Desc.mem_sites_declared hs with hs | rfl
      · exact h.created hold hx₁ s hs
      · exact hsite
  · rw [hd.constants, h.constants]
  · rw [hd.handles, h.handles]

theorem declareNew {e e' : Edit} (h : Extends document n e.names) {scope : DescId} {p : Desc}
    (hp : e.names.descs[scope]? = some p) {name : String} (hfree : p.children.get? name = none)
    {kind : DescKind} {site : Site} (hsite : site.element.document = document)
    (hd : Edit.DeclaringNew e e' scope p name kind site) : Extends document n e'.names := by
  refine ⟨?_, ?_, ?_, ?_, ?_, ?_⟩
  · intro j x hx
    obtain ⟨x₁, hx₁, hext⟩ := h.live hx
    obtain ⟨hj, hl⟩ := live?_eq_some_iff.1 hx₁
    by_cases hs : j = scope
    · subst hs
      rw [hp] at hj
      cases hj
      exact ⟨_, live?_eq_some_iff.2 ⟨hd.descs_scope hp, hl⟩, hext.withChild hfree h.size⟩
    · exact ⟨x₁, live?_eq_some_iff.2 ⟨by rw [hd.descs_other (lt_size hj) hs, hj], hl⟩, hext⟩
  · intro j x x' hx hx'
    obtain ⟨hj, hl⟩ := live?_eq_some_iff.1 hx'
    rcases hd.cases hp hj with ⟨rfl, -⟩ | ⟨rfl, rfl⟩ | ⟨-, hold⟩
    · exact absurd (lt_size hx) (Nat.not_lt.2 h.size)
    · exact h.stays hx (live?_eq_some_iff.2 ⟨hp, hl⟩)
    · exact h.stays hx (live?_eq_some_iff.2 ⟨hold, hl⟩)
  · intro j x' hold hnew s hs
    rcases hd.cases hp hnew with ⟨rfl, rfl⟩ | ⟨rfl, rfl⟩ | ⟨-, hx⟩
    · rw [List.mem_singleton.1 hs]
      exact hsite
    · exact h.created hold hp s hs
    · exact h.created hold hx s hs
  · rw [hd.size]
    exact Nat.le_succ_of_le h.size
  · rw [hd.constants, h.constants]
  · rw [hd.handles, h.handles]

theorem step {doc : Document} {st st' : Entering} {base : DocumentId → Option Contribution}
    (h : Extends doc.id n st.edit.names) (hsound : Sound st.edit.names (st.filed base doc))
    (hs : Entering.Step doc st st') : Extends doc.id n st'.edit.names := by
  cases hs with
  | @declare id e scope kind _ name allowed =>
    obtain ⟨p, hp, -⟩ := hsound.scope allowed
    rw [Entering.edit_enter]
    cases hc : p.children.get? name with
    | some child => exact h.declareOld rfl (Edit.declareChild_old hp hc kind _)
    | none => exact h.declareNew hp hc rfl (Edit.declareChild_new hp hc kind _)
  | constant _ hc =>
    refine ⟨h.live, h.stays, h.created, h.size, ?_, h.handles⟩
    rw [← h.constants]
    exact dropFrom_alter (by rw [hc]; rfl) _
  | @handle parent id pl _ name =>
    have hsite : (⟨name, pl.scope, doc.ref id⟩ : Handle).site.document = doc.id := rfl
    refine ⟨h.live, h.stays, h.created, h.size, h.constants, ?_⟩
    rw [← h.handles]
    exact dropFrom_alter hsite name
  | other => exact h

/-- A bare desc is new: the old ones keep their declarations. -/
theorem new_of_isBare (h : Extends document n m) (hn : Settled n) {id : DescId} {d : Desc}
    (hroot : id ≠ Namespace.root) (hd : m.live? id = some d) (hb : d.isBare = true) :
    n.descs[id]? = none := by
  cases hx : n.descs[id]? with
  | none => rfl
  | some x =>
    have hx' := h.stays hx hd
    obtain ⟨d', hd', hext⟩ := h.live hx'
    rw [hd] at hd'
    cases hd'
    have hsites := hn.declared hx (live?_eq_some_iff.1 hx').2 hroot
    rw [← hext.sites, (d.isBare_iff.1 hb).1] at hsites
    exact absurd rfl hsites

theorem unlink {e e' : Edit} (h : Extends document n e.names) (hn : Settled n)
    (tree : IsTree e.names) {id parent : DescId} {d : Desc} (hd : e.names.descs[id]? = some d)
    (hl : d.live = true) (hb : d.isBare = true) (hp : d.parent? = some parent)
    (hu : Edit.Unlinking e e' id d parent) : Extends document n e'.names := by
  obtain ⟨pd, hpd, hbelow⟩ := tree.below_of_parent? hd hp
  have hne : parent ≠ id := Nat.ne_of_lt hbelow.lt
  have hroot : id ≠ Namespace.root := (Nat.ne_of_gt (Nat.zero_lt_of_lt hbelow.lt))
  have hnew := h.new_of_isBare hn hroot (live?_eq_some_iff.2 ⟨hd, hl⟩) hb
  have hsize : n.descs.size ≤ id := Array.getElem?_eq_none_iff.1 hnew
  obtain ⟨pd', hpd', -, hlisted⟩ := tree.listed hd hl hp
  rw [hpd] at hpd'
  cases hpd'
  refine ⟨?_, ?_, ?_, by rw [hu.size]; exact h.size, by rw [hu.constants, h.constants],
    by rw [hu.handles, h.handles]⟩
  · intro j x hx
    obtain ⟨hxn, hxl⟩ := live?_eq_some_iff.1 hx
    obtain ⟨x₁, hx₁, hext⟩ := h.live hx
    obtain ⟨hj, hjl⟩ := live?_eq_some_iff.1 hx₁
    have hji : j ≠ id := by
      rintro rfl
      rw [hnew] at hxn
      cases hxn
    by_cases hjp : j = parent
    · subst hjp
      rw [hpd] at hj
      cases hj
      refine ⟨_, live?_eq_some_iff.2 ⟨hu.descs_parent hne hpd, hjl⟩, ?_⟩
      refine hext.withoutChild (tree.distinct hpd) ?_ hlisted hsize
      intro entry hentry
      obtain ⟨c, hc, -⟩ := hn.tree.child hxn
        (OrderedMap.get?_of_mem (hn.tree.distinct hxn) hentry)
      exact lt_size hc
    · exact ⟨x₁, live?_eq_some_iff.2 ⟨by rw [hu.descs_other hji hjp, hj], hjl⟩, hext⟩
  · intro j x x' hx hx'
    obtain ⟨hj, hjl⟩ := live?_eq_some_iff.1 hx'
    rcases hu.cases hne hd hpd hj with ⟨-, rfl⟩ | ⟨rfl, rfl⟩ | ⟨-, -, hold⟩
    · cases hjl
    · exact h.stays hx (live?_eq_some_iff.2 ⟨hpd, hjl⟩)
    · exact h.stays hx (live?_eq_some_iff.2 ⟨hold, hjl⟩)
  · intro j x' hold hx' s hs
    rcases hu.cases hne hd hpd hx' with ⟨rfl, rfl⟩ | ⟨rfl, rfl⟩ | ⟨-, -, hx⟩
    · exact h.created hold hd s hs
    · exact h.created hold hpd s hs
    · exact h.created hold hx s hs

theorem unlinks {e e' : Edit} (h : Extends document n e.names) (hn : Settled n)
    (hs : Sound e.names e.names.documents.get?) (hu : Unlinks e e') : Extends document n e'.names := by
  induction hu with
  | refl => exact h
  | step hd hl hb hp hu _ ih =>
    exact ih (h.unlink hn hs.tree hd hl hb hp hu) (hs.unlink hd hl hb hp hu)

/-- Updates of the document keep all that was there before it in front. -/
theorem edit (h : Extends document n m) (hn : Settled n) (hm : Settled m) {u : Update}
    (hu : u.document = document) : Extends document n (u.edit m).names := by
  subst hu
  have hw := h.withdrawn (withdrawn_spec hm.anchored u.document)
  refine Extends.unlinks ?_ hn (hm.entered u).1 (hm.update u).1
  cases u with
  | remove document => exact hw
  | sync s doc =>
    rcases Edit.enter_cases s doc (m.withdrawn doc.id) with ⟨-, heq⟩ | ⟨root, el, -, hel, -, heq⟩
    · rw [Update.entered, heq]
      exact hw
    · rw [Update.entered, heq]
      obtain ⟨-, h⟩ := hm.entering s hel (P := fun st => Extends doc.id n st.edit.names) hw
        fun st st' hu h hs => h.step hu.sound hs
      exact ⟨h.live, h.stays, h.created, h.size, h.constants, h.handles⟩

/-- A desc that no site of the document declares is an old one. -/
theorem live_old (h : Extends document n m) (hn : Settled n) (hm : Settled m)
    (hsites : ∀ {id : DescId} {d : Desc} {site : Site}, m.descs[id]? = some d → site ∈ d.sites →
      site.element.document ≠ document) {id : DescId} {d : Desc} (hd : m.live? id = some d) :
    ∃ d₀, n.live? id = some d₀ := by
  obtain ⟨hid, hl⟩ := live?_eq_some_iff.1 hd
  cases hold : n.descs[id]? with
  | some d₀ => exact ⟨d₀, h.stays hold hd⟩
  | none =>
    have hroot : id ≠ Namespace.root := by
      rintro rfl
      obtain ⟨r, hr, -⟩ := hn.tree.root
      rw [hold] at hr
      cases hr
    obtain ⟨site, hs⟩ := List.exists_mem_of_ne_nil _ (hm.declared hid hl hroot)
    exact absurd (h.created hold hid site hs) (hsites hid hs)

/-- Where the sites of the document are gone, the descs are those that were there before it. -/
theorem undated_eq (h : Extends document n m) (hn : Settled n) (hm : Settled m)
    (hsites : ∀ {id : DescId} {d : Desc} {site : Site}, m.descs[id]? = some d → site ∈ d.sites →
      site.element.document ≠ document) (id : DescId) :
    (m.live? id).map Desc.undated = (n.live? id).map Desc.undated := by
  cases hd : n.live? id with
  | none =>
    cases hr : m.live? id with
    | none => rfl
    | some d =>
      obtain ⟨d₀, hd₀⟩ := h.live_old hn hm hsites hr
      rw [hd] at hd₀
      cases hd₀
  | some d =>
    obtain ⟨d', hd', hextended⟩ := h.live hd
    obtain ⟨hid, hl⟩ := live?_eq_some_iff.1 hd'
    rw [hd', Option.map_some, Option.map_some]
    refine congrArg some (hextended.undated_eq ?_ ?_ fun site hs => hsites hid hs)
    · rw [hl, (live?_eq_some_iff.1 hd).2]
    · intro e he
      have hget := OrderedMap.get?_of_mem (hm.tree.distinct hid) he
      obtain ⟨c, hc, -⟩ := hm.tree.live_child hd' hget
      obtain ⟨c₀, hc₀⟩ := h.live_old hn hm hsites hc
      exact lt_size (live?_eq_some_iff.1 hc₀).1

/-- What is left when the document has been taken out is what was there before it. -/
theorem restored (h : Extends document n m) (hn : Settled n) (hm : Settled m)
    (hnone : n.documents.get? document = none)
    (hothers : ∀ {other : DocumentId}, other ≠ document → SameIn other n m) :
    Restored n (m.remove document).names := by
  have hext : Extends document n (m.remove document).names :=
    h.edit hn hm (u := .remove document) rfl
  obtain ⟨hunlinks, hsettled⟩ := hm.update (.remove document)
  have hw := withdrawn_spec hm.anchored document
  obtain ⟨hconstants, hhandles, hdocuments⟩ := hunlinks.registers
  have hsites : ∀ {id : DescId} {d : Desc} {site : Site},
      (m.remove document).names.descs[id]? = some d → site ∈ d.sites →
        site.element.document ≠ document := by
    intro id d site hd hs hdoc
    obtain ⟨d₀, hd₀, hs₀⟩ := ((hunlinks.sameIn (hm.entered _).1 document).sites hdoc).1 ⟨d, hd, hs⟩
    exact hw.document_ne hd₀ hs₀ hdoc
  have hplace : ∀ element, (m.remove document).names.place? element = n.place? element := by
    intro element
    by_cases hdoc : element.document = document
    · have hgone : (m.remove document).names.documents.get? document = none := by
        refine (congrArg (·.get? document) hdocuments).trans ?_
        exact (congrArg (·.get? document) hw.documents).trans (by
          rw [OrderedMap.get?_erase, if_pos rfl])
      rw [place?, place?, hdoc, hgone, hnone]
    · rw [← (hothers hdoc).places rfl]
      exact (hm.sameIn (.remove document) hdoc).places rfl
  refine ⟨hext.undated_eq hn hsettled hsites, ?_, ?_, fun element => ?_, fun element => ?_⟩
  · exact hconstants.trans (hw.constants.trans h.constants)
  · exact hhandles.trans (hw.handles.trans h.handles)
  · rw [Namespace.declared?, Namespace.declared?, hplace]
  · rw [Namespace.scope?, Namespace.scope?, hplace]

end Extends

end

/-- Putting a document in of which nothing is there, and taking it out again, restores the namespace. -/
theorem restored_remove_sync (history : List Update) (s : Schema) (doc : Document)
    (hnone : (after history).documents.get? doc.id = none) :
    Restored (after history) (((after history).sync s doc).names.remove doc.id).names := by
  have hn := settled_after history
  have hself : Extends doc.id (after history) (after history) := by
    refine hn.extends_self hnone ?_
    rintro name c hc hdoc
    obtain ⟨k, hk⟩ := filed_of_constant history hc
    rw [hdoc, hnone] at hk
    cases hk
  exact (hself.edit hn hn (u := .sync s doc) rfl).restored hn (hn.update (.sync s doc)).2 hnone
    fun hne => hn.sameIn (.sync s doc) hne

/-- A second document that declares the same frames, and an animation in the place of one. -/
theorem restored_nested :
    (after [.sync threeSlots (nested "Frame" 1)]).documents.get? 1 = none ∧
      Restored (after [.sync threeSlots (nested "Frame" 1)])
        (((after [.sync threeSlots (nested "Frame" 1)]).sync threeSlots
          { nested "Animation" 2 with id := 1 }).names.remove 1).names := by
  have hnone : (after [.sync threeSlots (nested "Frame" 1)]).documents.get? 1 = none := by
    decide +kernel
  exact ⟨hnone, restored_remove_sync _ threeSlots { nested "Animation" 2 with id := 1 } hnone⟩

end Namespace
end UILayout
