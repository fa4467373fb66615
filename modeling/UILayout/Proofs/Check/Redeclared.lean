import UILayout.Proofs.Check.Order
import UILayout.Proofs.Namespace.Once

/-!
# UILayout.Proofs.Check.Redeclared

Elements that declare what an element in front of them in the same document declares. A desc lists all
its declarations, from all documents and in the order of the edits, but of those that come from one
document none is missing and they are in order. So what is reported depends on the document alone.

* `checkRedeclared_first`, `checkRedeclared_later`: what the check of one element reports.
* `redeclarations_exact`: one report for every element that redeclares something.
* `redeclared_exact`: all reports of this kind, and what they depend on.
-/

namespace UILayout
namespace Check

open Text Schema Markup Namespace Workspace

/-! ## Declarations of a document -/

/-- An element of a document declares a desc. -/
def DeclaredBy (n : Namespace) (doc : Document) (desc : DescId) (id : ElementId) (e : Element) : Prop :=
  n.declared? (doc.ref id) = some desc ∧ doc.element? id = some e

/-- An element declares a desc, and no other one of the document that does starts before it. -/
def FirstDeclaredBy (n : Namespace) (doc : Document) (desc : DescId) (id : ElementId) (e : Element) :
    Prop :=
  DeclaredBy n doc desc id e ∧ ∀ other o, DeclaredBy n doc desc other o → e.start ≤ o.start

/-- An element that is not linked to a file declares a desc which another element of the document, in
front of it, declares too. -/
def Redeclares (n : Namespace) (doc : Document) (id : ElementId) : Prop :=
  ∃ desc e, DeclaredBy n doc desc id e ∧ e.attribute? "file" = none ∧
    ∃ other o, DeclaredBy n doc desc other o ∧ o.start < e.start

/-- A report stands at the start tag of an element, and refers to that of the first element which
declares the same. -/
def OnRedeclared (n : Namespace) (doc : Document) (id : ElementId) (r : Report) : Prop :=
  ∃ desc e first f, DeclaredBy n doc desc id e ∧ FirstDeclaredBy n doc desc first f ∧
    r.span = e.tagSpan ∧ r.related = [⟨doc.id, f.tagSpan, "first declared here"⟩]

section

variable {n : Namespace} {s : Schema} {doc : Document} {desc : DescId} {d : Desc} {id : ElementId}
  {e : Element}

/-- The first one of the declarations that a desc has from a document. -/
theorem exists_first (h : n.TakenIn s doc) (hd : n.live? desc = some d)
    (hdeclared : DeclaredBy n doc desc id e) :
    ∃ first f rest, FirstDeclaredBy n doc desc first f ∧
      d.sitesIn doc.id = Entering.siteOf doc first f :: rest ∧
      ∀ site ∈ rest, ∃ later l, first < later ∧ DeclaredBy n doc desc later l ∧
        site = Entering.siteOf doc later l := by
  have hmem := fun site => h.mem_sitesIn_iff hd site
  have hascending := h.ascending_sitesIn hd
  have hown := (hmem _).2 ⟨id, e, hdeclared.1, hdeclared.2, rfl⟩
  generalize d.sitesIn doc.id = sites at hmem hascending hown
  cases sites with
  | nil => cases hown
  | cons site rest =>
    obtain ⟨first, f, hfirst, hf, rfl⟩ := (hmem _).1 List.mem_cons_self
    have hlater := (List.pairwise_cons.1 hascending).1
    refine ⟨first, f, rest, ⟨⟨hfirst, hf⟩, fun other o ho => ?_⟩, rfl, fun site hsite => ?_⟩
    · refine Nat.le_of_not_lt fun hlt => ?_
      have hbefore := (h.order.start_lt_iff ho.2 hf).1 hlt
      rcases List.mem_cons.1 ((hmem _).2 ⟨other, o, ho.1, ho.2, rfl⟩) with heq | hother
      · exact Nat.ne_of_lt hbefore (ElementRef.mk.inj (congrArg Site.element heq)).2
      · exact Nat.lt_asymm hbefore (hlater _ hother)
    · obtain ⟨later, l, hl, hle, rfl⟩ := (hmem _).1 (List.mem_cons_of_mem _ hsite)
      exact ⟨later, l, hlater _ hsite, ⟨hl, hle⟩, rfl⟩

/-! ## The check of an element -/

/-- The first declaration of a desc is no redeclaration. -/
theorem checkRedeclared_first {rest : List Site}
    (hsites : d.sitesIn doc.id = Entering.siteOf doc id e :: rest)
    (hrest : ∀ site ∈ rest, e.start < site.start) : checkRedeclared doc (doc.ref id) e d = [] := by
  have hnone : (d.sitesIn doc.id).find? (fun site =>
      decide (site.element ≠ doc.ref id) && decide (site.start ≤ e.start)) = none := by
    rw [hsites]
    refine List.find?_eq_none.2 (List.forall_mem_cons.2 ⟨?_, fun site hsite => ?_⟩)
    · simp [Entering.siteOf, Document.ref]
    · simp [Nat.not_le.2 (hrest site hsite)]
  unfold checkRedeclared
  rw [show (doc.ref id).document = doc.id from rfl, hnone]

/-- A later one is reported together with the first one. -/
theorem checkRedeclared_later {first : ElementId} {f : Element} {rest : List Site}
    (hsites : d.sitesIn doc.id = Entering.siteOf doc first f :: rest) (hf : doc.element? first = some f)
    (hne : first ≠ id) (hstart : f.start ≤ e.start) : checkRedeclared doc (doc.ref id) e d =
      [⟨.redeclared d.path, e.tagSpan, [⟨doc.id, f.tagSpan, "first declared here"⟩]⟩] := by
  have hfound : (d.sitesIn doc.id).find? (fun site =>
      decide (site.element ≠ doc.ref id) && decide (site.start ≤ e.start)) =
        some (Entering.siteOf doc first f) := by
    rw [hsites]
    exact List.find?_cons_of_pos (by simp [Entering.siteOf, Document.ref, hne, hstart])
  unfold checkRedeclared
  rw [show (doc.ref id).document = doc.id from rfl, hfound]
  dsimp only
  rw [show (Entering.siteOf doc first f).element.element = first from rfl, hf]
  rfl

/-- The check of an element that is not linked to a file reports one redeclaration, or there is none. -/
theorem checkRedeclared_iff (h : n.TakenIn s doc) (hd : n.live? desc = some d)
    (hdeclared : DeclaredBy n doc desc id e) (hfile : e.attribute? "file" = none) :
    (Redeclares n doc id ∧ ∃ r, checkRedeclared doc (doc.ref id) e d = [r] ∧ OnRedeclared n doc id r) ∨
      (¬ Redeclares n doc id ∧ checkRedeclared doc (doc.ref id) e d = []) := by
  obtain ⟨first, f, rest, hfirst, hsites, hrest⟩ := exists_first h hd hdeclared
  by_cases hid : first = id
  · subst hid
    obtain rfl : f = e := Option.some.inj (hfirst.1.2.symm.trans hdeclared.2)
    refine .inr ⟨?_, checkRedeclared_first hsites fun site hsite => ?_⟩
    · rintro ⟨desc', e', ⟨hdesc, he⟩, -, other, o, ho, hfront⟩
      rw [hdeclared.1] at hdesc
      rw [hdeclared.2] at he
      cases hdesc
      cases he
      exact Nat.not_le.2 hfront (hfirst.2 other o ho)
    · obtain ⟨later, l, hlater, hl, rfl⟩ := hrest site hsite
      exact h.order.starts hdeclared.2 hl.2 hlater
  · have hle := hfirst.2 id e hdeclared
    have hfront : f.start < e.start := by
      refine (h.order.start_lt_iff hfirst.1.2 hdeclared.2).2 (Nat.lt_of_not_le fun hback => ?_)
      exact Nat.not_lt.2 hle (h.order.starts hdeclared.2 hfirst.1.2
        (Nat.lt_of_le_of_ne hback (Ne.symm hid)))
    exact .inl ⟨⟨desc, e, hdeclared, hfile, first, f, hfirst.1, hfront⟩, _,
      checkRedeclared_later hsites hfirst.1.2 hid hle, desc, e, first, f, hdeclared, hfirst, rfl, rfl⟩

/-- What the check of an element says about earlier declarations. -/
def redeclaredOf (n : Namespace) (doc : Document) (id : ElementId) (e : Element) : List Report :=
  match (n.declared? (doc.ref id)).bind (n.descs[·]?), e.attribute? "file" with
  | some d, none => checkRedeclared doc (doc.ref id) e d
  | _, _ => []

theorem redeclaredOf_iff (h : n.TakenIn s doc) (he : doc.element? id = some e) :
    (Redeclares n doc id ∧ ∃ r, redeclaredOf n doc id e = [r] ∧ OnRedeclared n doc id r) ∨
      (¬ Redeclares n doc id ∧ redeclaredOf n doc id e = []) := by
  unfold redeclaredOf
  cases hdeclared : n.declared? (doc.ref id) with
  | none =>
    refine .inr ⟨?_, rfl⟩
    rintro ⟨desc, -, ⟨hdesc, -⟩, -⟩
    rw [hdeclared] at hdesc
    cases hdesc
  | some desc =>
    obtain ⟨d, -, hd, -⟩ := h.live_of_declared? hdeclared
    rw [Option.bind_some, (live?_eq_some_iff.1 hd).1]
    cases hfile : e.attribute? "file" with
    | none => exact checkRedeclared_iff h hd ⟨hdeclared, he⟩ hfile
    | some file =>
      refine .inr ⟨?_, rfl⟩
      rintro ⟨-, e', ⟨-, he'⟩, hnone, -⟩
      rw [he] at he'
      cases he'
      rw [hfile] at hnone
      cases hnone

theorem code_checkRedeclared (doc : Document) (ref : ElementRef) (e : Element) (d : Desc) :
    ∀ r ∈ checkRedeclared doc ref e d, r.finding.code = "E0510" := by
  unfold checkRedeclared
  split
  · exact List.forall_mem_nil _
  · exact List.forall_mem_singleton.2 rfl

theorem withCode_checkFile (ctx : Context) (h : Hierarchy) (e : Element) (desc : DescId) (name : String)
    (file : Attribute) : withCode "E0510" (checkFile ctx h e desc name file).1 = [] := by
  unfold checkFile
  split
  · rfl
  · split <;> rfl

theorem withCode_checkDeclaration (ctx : Context) (doc : Document) (h : Hierarchy) (ref : ElementRef)
    (e : Element) (desc : DescId) : withCode "E0510" (checkDeclaration ctx doc h ref e desc).1 =
      match ctx.names.descs[desc]?, e.attribute? "file" with
      | some d, none => checkRedeclared doc ref e d
      | _, _ => [] := by
  unfold checkDeclaration
  cases ctx.names.descs[desc]? with
  | none => rfl
  | some d =>
    cases e.attribute? "file" with
    | none => exact withCode_eq_self (code_checkRedeclared doc ref e d)
    | some file => exact withCode_checkFile ctx h e desc d.name file

/-- The check of attributes reports no redeclaration. -/
theorem withCode_append_attributes (reports : List Report) (ctx : Context) (scope : DescId)
    (h : Hierarchy) (e : Element) (t : ComplexType) :
    withCode "E0510" (reports ++ (checkAttributes ctx scope h e t).1) = withCode "E0510" reports := by
  have hattributes : withCode "E0510" (checkAttributes ctx scope h e t).1 = [] := by
    refine withCode_eq_nil fun r hr hcode => ?_
    have hdeclaration := (Finding.isDeclaration_iff r.finding).2 (by rw [hcode]; decide)
    rw [isDeclaration_checkAttributes hr] at hdeclaration
    cases hdeclaration
  rw [withCode_append, hattributes, List.append_nil]

theorem withCode_checkElement (ctx : Context) (doc : Document) (h : Hierarchy) (id : ElementId)
    (e : Element) (b : Binding) :
    withCode "E0510" (checkElement ctx doc h (id, e, b)).1 =
      if (ctx.schema.slotKind b.slot).declares then redeclaredOf ctx.names doc id e else [] := by
  unfold checkElement
  dsimp only
  split_ifs
  · unfold redeclaredOf
    cases ctx.names.declared? (doc.ref id) with
    | none =>
      dsimp only
      split
      · rfl
      · exact withCode_append_attributes [] ctx _ h e _
    | some desc =>
      have hdeclaration := withCode_checkDeclaration ctx doc h (doc.ref id) e desc
      dsimp only
      split
      · exact hdeclaration
      · exact (withCode_append_attributes _ ctx _ _ e _).trans hdeclaration
  · dsimp only
    split
    · rfl
    · exact withCode_append_attributes [] ctx _ h e _

/-! ## All elements -/

/-- An element that declares what another one in front of it declares is one that is checked, and is of a
kind that declares something: it is not the root. -/
theorem checked_of_redeclares (h : n.TakenIn s doc) (hr : Redeclares n doc id) :
    ∃ e b, (id, e, b) ∈ boundElements doc ∧ (s.slotKind b.slot).declares = true := by
  obtain ⟨desc, e, hdeclared, -, other, o, ho, hfront⟩ := hr
  obtain ⟨hid, e', b, he, hb, hroot | hdeclares⟩ := h.bound_of_declared? hdeclared.1
  · obtain ⟨root, hroot', habove⟩ := h.order.mem_descendants_iff.1 (h.bound_of_declared? ho.1).1
    rw [hroot] at hroot'
    cases hroot'
    have hlt := (h.order.start_lt_iff ho.2 hdeclared.2).1 hfront
    exact absurd (h.order.le_of_above habove) (Nat.not_le.2 hlt)
  · exact ⟨e', b, mem_boundElements_iff.2 ⟨hid, he, hb⟩, hdeclares⟩

/-- What the checks of all elements say about earlier declarations. -/
def redeclarations (n : Namespace) (s : Schema) (doc : Document) : List Report :=
  (boundElements doc).flatMap fun bound =>
    if (s.slotKind bound.2.2.slot).declares then redeclaredOf n doc bound.1 bound.2.1 else []

theorem redeclarations_exact (h : n.TakenIn s doc) :
    OneEach (Redeclares n doc) (OnRedeclared n doc) (redeclarations n s doc) := by
  classical
  have hmem : ∀ {bound : ElementId × Element × Binding} {x : ElementId},
      x ∈ (if Redeclares n doc bound.1 then [bound.1] else []) ↔ Redeclares n doc x ∧ x = bound.1 := by
    intro bound x
    split
    · rename_i hr
      exact List.mem_singleton.trans ⟨fun hx => ⟨hx ▸ hr, hx⟩, And.right⟩
    · rename_i hr
      exact iff_of_false List.not_mem_nil fun hx => hr (hx.2 ▸ hx.1)
  refine ⟨(boundElements doc).flatMap fun bound => if Redeclares n doc bound.1 then [bound.1] else [],
    ?_, fun id => ?_, forall₂_flatMap fun ⟨id, e, b⟩ hbound => ?_⟩
  · refine nodup_flatMap_boundElements h.order.toTree (fun bound _ => ?_) ?_
    · split
      · exact List.nodup_singleton _
      · exact List.nodup_nil
    · intro bound _ bound' _ x hx hx'
      exact (hmem.1 hx).2.symm.trans (hmem.1 hx').2
  · constructor
    · intro hid
      obtain ⟨bound, -, hid⟩ := List.mem_flatMap.1 hid
      exact (hmem.1 hid).1
    · intro hr
      obtain ⟨e, b, hbound, -⟩ := checked_of_redeclares h hr
      exact List.mem_flatMap.2 ⟨(id, e, b), hbound, hmem.2 ⟨hr, rfl⟩⟩
  · obtain ⟨-, he, hb⟩ := mem_boundElements_iff.1 hbound
    rcases redeclaredOf_iff h he with ⟨hr, r, heq, hon⟩ | ⟨hr, heq⟩
    · obtain ⟨e', b', hbound', hdeclares⟩ := checked_of_redeclares h hr
      obtain ⟨-, he', hb'⟩ := mem_boundElements_iff.1 hbound'
      rw [he] at he'
      cases he'
      rw [hb] at hb'
      cases hb'
      rw [if_pos hr, if_pos hdeclares, heq]
      exact .cons hon .nil
    · rw [if_neg hr, heq, ite_self]
      exact .nil

end

/-! ## Other namespaces -/

/-- Where a report stands, and what it refers to in its document. -/
def place (r : Report) : Span × List (Span × String) :=
  (r.span, r.related.map fun x => (x.span, x.message))

section

variable {n n' : Namespace} {s : Schema} {doc : Document} {number : DocumentId} {id : ElementId}
  {desc desc' : DescId} {e e' : Element}

/-- The elements that declare the same in one namespace do so in the other one. -/
theorem declaredBy_iff (h : n.TakenIn s doc) (h' : n'.TakenIn s (doc.renumber number))
    (hd : DeclaredBy n doc desc id e) (hd' : DeclaredBy n' (doc.renumber number) desc' id e')
    (other : ElementId) (o : Element) :
    DeclaredBy n' (doc.renumber number) desc' other o ↔ DeclaredBy n doc desc other o := by
  obtain ⟨desc'', hdeclared, hsame⟩ := h.exists_declared h' hd.1
  rw [hd'.1] at hdeclared
  cases hdeclared
  exact and_congr_left' (hsame other)

theorem redeclares_renumber (h : n.TakenIn s doc) (h' : n'.TakenIn s (doc.renumber number))
    (hr : Redeclares n doc id) : Redeclares n' (doc.renumber number) id := by
  obtain ⟨desc, e, hd, hfile, other, o, ho, hfront⟩ := hr
  obtain ⟨desc', hdeclared', -⟩ := h.exists_declared h' hd.1
  have hd' : DeclaredBy n' (doc.renumber number) desc' id e := ⟨hdeclared', hd.2⟩
  exact ⟨desc', e, hd', hfile, other, o, (declaredBy_iff h h' hd hd' other o).2 ho, hfront⟩

/-- Back to the number that the document has had. -/
theorem redeclares_renumber_iff (h : n.TakenIn s doc) (h' : n'.TakenIn s (doc.renumber number))
    (id : ElementId) : Redeclares n' (doc.renumber number) id ↔ Redeclares n doc id := by
  have hback : n.TakenIn s ((doc.renumber number).renumber doc.id) := h
  exact ⟨redeclares_renumber h' hback, redeclares_renumber h h'⟩

/-- Reports on one element that redeclares something refer to the same element. -/
theorem place_onRedeclared (h : n.TakenIn s doc) (h' : n'.TakenIn s (doc.renumber number))
    {r r' : Report} (hr : OnRedeclared n doc id r) (hr' : OnRedeclared n' (doc.renumber number) id r') :
    place r = place r' := by
  obtain ⟨desc, e, first, f, hd, hfirst, hspan, hrelated⟩ := hr
  obtain ⟨desc', e', first', f', hd', hfirst', hspan', hrelated'⟩ := hr'
  have hsame := declaredBy_iff h h' hd hd'
  have hstarts : f.start = f'.start := Nat.le_antisymm
    (hfirst.2 first' f' ((hsame first' f').1 hfirst'.1))
    (hfirst'.2 first f ((hsame first f).2 hfirst.1))
  have hf' : doc.element? first' = some f' := hfirst'.1.2
  have hid : first = first' := Nat.le_antisymm
    (Nat.le_of_not_lt fun hlt => Nat.ne_of_lt (h.order.starts hf' hfirst.1.2 hlt) hstarts.symm)
    (Nat.le_of_not_lt fun hlt => Nat.ne_of_lt (h.order.starts hfirst.1.2 hf' hlt) hstarts)
  have hf : f = f' := Option.some.inj (hfirst.1.2.symm.trans (hid ▸ hf'))
  have he : e = e' := Option.some.inj (hd.2.symm.trans hd'.2)
  rw [place, place, hspan, hspan', hrelated, hrelated', hf, he]
  rfl

theorem place_redeclarations (h : n.TakenIn s doc) (h' : n'.TakenIn s (doc.renumber number)) :
    (redeclarations n' s (doc.renumber number)).map place = (redeclarations n s doc).map place := by
  have hbound : boundElements (doc.renumber number) = boundElements doc := by
    unfold boundElements Document.descendants
    rw [show (doc.renumber number).root? = doc.root? from rfl, funext (subtree_renumber doc number)]
    rfl
  unfold redeclarations
  rw [hbound, List.map_flatMap, List.map_flatMap]
  refine List.flatMap_congr fun ⟨id, e, b⟩ hmem => ?_
  have he := (mem_boundElements_iff.1 hmem).2.1
  have he' : (doc.renumber number).element? id = some e := he
  dsimp only
  split
  · rcases redeclaredOf_iff h he with ⟨hr, r, heq, hon⟩ | ⟨hr, heq⟩ <;>
      rcases redeclaredOf_iff h' he' with ⟨hr', r', heq', hon'⟩ | ⟨hr', heq'⟩
    · rw [heq, heq', List.map_singleton, List.map_singleton, place_onRedeclared h h' hon hon']
    · exact absurd ((redeclares_renumber_iff h h' id).2 hr) hr'
    · exact absurd ((redeclares_renumber_iff h h' id).1 hr') hr
    · rw [heq, heq']
  · rfl

end

/-! ## Documents of a session -/

theorem takenIn_after (s : Schema) (commands : List Command) {id : DocumentId} {doc : Document}
    (hdoc : (after s commands).context.document? id = some doc) (horder : doc.InOrder) :
    (after s commands).context.names.TakenIn (after s commands).context.schema doc := by
  obtain ⟨history, hnames, hin⟩ := (stepped_after s commands).exists_history hdoc
  rw [hnames]
  exact ⟨settled_after history, mirrors_of_current hin, owns_after hin, horder⟩

/-- No report on conformance is about declarations. -/
theorem withCode_structureReports (s : Schema) (doc : Document) :
    withCode "E0510" (structureReports s doc) = [] := by
  rw [structureReports, withCode, List.filter_flatMap, List.flatMap_eq_nil_iff]
  intro bound _
  rw [structureOf_eq, List.filter_append]
  exact List.append_eq_nil_iff.2 ⟨withCode_eq_nil_of_code code_missingOf (by decide),
    withCode_eq_nil_of_code code_unknownElements (by decide)⟩

theorem withCode_check (s : Schema) (commands : List Command) {id : DocumentId} {doc : Document}
    (hdoc : (after s commands).context.document? id = some doc) :
    let w := after s commands
    withCode "E0510" (w.check id).1 = redeclarations w.context.names w.context.schema doc := by
  intro w
  rw [reports_check s commands hdoc, withCode_append, withCode_structureReports, List.nil_append,
    withCode, List.filter_flatMap]
  exact List.flatMap_congr fun bound _ =>
    withCode_checkElement w.context doc w.hierarchy bound.1 bound.2.1 bound.2.2

/-- The check of a document reports, at their start tags, exactly those elements that declare a desc, are
not linked to a file, and have another element of the same document that declares the desc in front of
them; each report refers to the first such element. Where another session has the same document, under
whatever number, and whatever else it has and has done, the same elements are reported. -/
theorem redeclared_exact (s : Schema) {commands : List Command} (hc : ∀ c ∈ commands, c.SetsRead)
    {id : DocumentId} {doc : Document}
    (hdoc : (after s commands).context.document? id = some doc) :
    let w := after s commands
    OneEach (Redeclares w.context.names doc) (OnRedeclared w.context.names doc)
      (withCode "E0510" (w.check id).1) ∧
    ∀ (s' : Schema) (commands' : List Command) (id' : DocumentId),
      let w' := after s' commands'
      let doc' := doc.renumber id'
      w'.context.schema = w.context.schema → w'.context.document? id' = some doc' →
        (∀ element, Redeclares w'.context.names doc' element ↔
          Redeclares w.context.names doc element) ∧
        (withCode "E0510" (w'.check id').1).map place = (withCode "E0510" (w.check id).1).map place := by
  intro w
  have horder := inOrder_after s hc hdoc
  have htaken : w.context.names.TakenIn w.context.schema doc := takenIn_after s commands hdoc horder
  rw [withCode_check s commands hdoc]
  refine ⟨redeclarations_exact htaken, fun s' commands' id' => ?_⟩
  intro w' doc' hschema hdoc'
  have horder' : doc'.InOrder := horder.of_places rfl (fun _ => rfl) fun _ => rfl
  have htaken' : w'.context.names.TakenIn w'.context.schema doc' :=
    takenIn_after s' commands' hdoc' horder'
  rw [withCode_check s' commands' hdoc']
  rw [hschema] at htaken' ⊢
  exact ⟨redeclares_renumber_iff htaken htaken', place_redeclarations htaken htaken'⟩

/-- A file with two frames of one name. -/
def twice (path : String) : Command :=
  .setFile path "<Desc><Frame name=\"F\"/><Frame name=\"F\"/></Desc>".toList

/-- The second frame is reported, also when there is another file like that. -/
theorem redeclared_exact_twice :
    let w := after framesOnly [twice "A"]
    let w' := after framesOnly [twice "A", twice "B"]
    ∃ doc, (w.context.document? 0 = some doc ∧ ∀ c ∈ [twice "A"], c.SetsRead) ∧
      (∃ element e, (∀ other, Redeclares w.context.names doc other ↔ other = element) ∧
        doc.element? element = some e ∧ e.tagSpan = ⟨23, 40⟩) ∧
      w'.context.document? 0 = some doc ∧
      (withCode "E0510" (w'.check 0).1).map place = [(⟨23, 40⟩, [(⟨6, 23⟩, "first declared here")])] := by
  intro w w'
  have hc : ∀ c ∈ [twice "A"], c.SetsRead := by
    rintro c (_ | ⟨_, ⟨⟩⟩)
    trivial
  have hsome : (w.context.document? 0).isSome = true := by decide +kernel
  obtain ⟨doc, hdoc⟩ := Option.isSome_iff_exists.1 hsome
  have hread : (Document.ofText (w.allocate "B").1 "B"
      "<Desc><Frame name=\"F\"/><Frame name=\"F\"/></Desc>".toList).toOption.isSome = true := by
    decide +kernel
  obtain ⟨read, hread⟩ := Option.isSome_iff_exists.1 hread
  have hnext : (w.allocate "B").1 = 1 := by decide +kernel
  have hsecond : w'.context = _ := context_setFile w (ok_of_toOption hread)
  have hdoc' : w'.context.document? 0 = some doc := by
    rw [hsecond, Context.document?, hnext, OrderedMap.get?_put, if_neg (by decide)]
    exact hdoc
  have hid : doc.renumber 0 = doc := by
    rw [← (stepped_after framesOnly [twice "A"]).id_eq hdoc]
    rfl
  obtain ⟨hexact, hother⟩ := redeclared_exact framesOnly hc hdoc
  have hschema : w'.context.schema = w.context.schema := by rw [hsecond]
  have hsame := (hother framesOnly [twice "A", twice "B"] 0 hschema (hid.symm ▸ hdoc')).2
  have hreports : withCode "E0510" (w.check 0).1 = [⟨.redeclared "A/F", ⟨23, 40⟩,
      [⟨0, ⟨6, 23⟩, "first declared here"⟩]⟩] := by decide +kernel
  rw [hreports] at hexact hsame
  obtain ⟨element, honly, desc, e, first, f, hdeclared, -, hspan, -⟩ := OneEach.of_singleton hexact
  exact ⟨doc, ⟨hdoc, hc⟩, ⟨element, e, honly, hdeclared.2, hspan.symm⟩, hdoc', hsame⟩

end Check
end UILayout
