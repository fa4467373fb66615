import UILayout.Proofs.Namespace.Independent
import UILayout.Proofs.Namespace.Trace

/-!
# UILayout.Proofs.Namespace.Kind

The kinds of descs. A desc is given its kind by the declaration that it is made for, and keeps it for as
long as it stays in the tree, whatever declares it later. So a kind, unlike all else that a namespace
holds, depends on the history: it is that of the first declaration in the update that founded the path.

* `Kinded.abreast`: a desc that is made has the kind of the first declaration at its path.
* `kind_iff_founded`: the kind of a desc is the one that its path was founded with.
* `kindsFollow_iff`: all kinds are declared just when every path is still declared with the kind that
  it was founded with.
-/

namespace UILayout
namespace Namespace

open Schema Markup

/-- The kind of the desc that an element declares. -/
def elementKind? (s : Schema) (doc : Document) (id : ElementId) : Option DescKind :=
  (doc.element? id).bind fun e => e.binding?.bind fun b => DescKind.ofSlot? (s.slotKind b.slot)

/-- The kind of the first declaration at a path. -/
def Listing.firstKind? (l : Listing) (s : Schema) (doc : Document) (path : List String) :
    Option DescKind :=
  (l.sites.find? (·.1 = path)).bind fun x => elementKind? s doc x.2.element.element

/-- A document that is in the namespace declares a path. -/
def Declared (history : List Update) (path : List String) : Prop :=
  ∃ document s doc site, current history document = some (s, doc) ∧ (path, site) ∈ (listing s doc).sites

/-- The kind of the first declaration at a path, in the document that an update puts in. -/
def Update.firstKind? (u : Update) (path : List String) : Option DescKind :=
  u.content?.bind fun x => (listing x.1 x.2).firstKind? x.1 x.2 path

/-- A path has been declared ever since an update in which its first declaration was of a kind. -/
inductive Founded : List Update → List String → DescKind → Prop where
  | now {history : List Update} {u : Update} {path : List String} {kind : DescKind} :
      ¬ Declared history path → u.firstKind? path = some kind → Founded (history ++ [u]) path kind
  | still {history : List Update} {u : Update} {path : List String} {kind : DescKind} :
      Founded history path kind → Declared (history ++ [u]) path → Founded (history ++ [u]) path kind

/-! ## Putting a document in -/

/-- The descs that have been made since `n` have the kinds of the first declarations at their paths. -/
def Kinded (n : Namespace) (s : Schema) (doc : Document) (st : Entering) (l : Listing) : Prop :=
  ∀ ⦃id : DescId⦄ ⦃d : Desc⦄ ⦃path : List String⦄, n.descs.size ≤ id →
    st.edit.names.descs[id]? = some d → st.edit.names.path? id = some path → 1 < path.length →
    l.firstKind? s doc path = some d.kind

section

variable {n : Namespace} {s : Schema} {doc : Document} {st : Entering} {l : Listing}

/-- The first declaration stays the first one. -/
theorem Listing.firstKind?_declare {id : ElementId} {e : Element} {path other : List String}
    {kind : DescKind} (h : l.firstKind? s doc other = some kind) :
    (l.declare doc id e path).firstKind? s doc other = some kind := by
  obtain ⟨x, hx, hkind⟩ := Option.bind_eq_some_iff.1 h
  simp only [firstKind?, declare, put, List.find?_append, hx, Option.some_or, Option.bind_some]
  exact hkind

/-- A declaration changes no kind, and gives the desc that it makes its own. -/
theorem Sound.kind_enter {base : DocumentId → Option Contribution}
    (h : Sound st.edit.names (st.filed base doc)) {scope : DescId} {kind : DescKind}
    (ha : st.Allows scope kind) (id : ElementId) (e : Element) (name : String) {j : DescId} {d' : Desc}
    (hd' : (st.enter doc id e scope name kind).edit.names.descs[j]? = some d') :
    (∃ d, st.edit.names.descs[j]? = some d ∧ d'.kind = d.kind) ∨
      st.edit.names.child? scope name = none ∧ j = st.edit.childOf scope name kind ∧
        d'.kind = kind := by
  obtain ⟨p, hp, hlive, -⟩ := h.scope ha
  rw [Entering.edit_enter] at hd'
  cases hc : p.children.get? name with
  | some id' =>
    have hold := Edit.declareChild_old hp hc kind (Entering.siteOf doc id e)
    obtain ⟨d, hd⟩ : ∃ d, st.edit.names.descs[j]? = some d :=
      ⟨_, Array.getElem?_eq_getElem (hold.size ▸ lt_size hd')⟩
    obtain ⟨d'', hd'', hsame⟩ := hold.keeps hd
    rw [hd'] at hd''
    cases hd''
    exact .inl ⟨d, hd, hsame.kind⟩
  | none =>
    have hnew := Edit.declareChild_new hp hc kind (Entering.siteOf doc id e)
    rcases hnew.cases hp hd' with ⟨rfl, rfl⟩ | ⟨rfl, rfl⟩ | ⟨-, hd⟩
    · refine .inr ⟨?_, ?_, rfl⟩
      · rw [child?, live?_eq_some_iff.2 ⟨hp, hlive⟩, Option.bind_some, hc]
      · rw [Edit.childOf, Edit.ensureChild_of_none hp hc]
    · exact .inl ⟨p, hp, rfl⟩
    · exact .inl ⟨d', hd, rfl⟩

theorem Kinded.declare (hk : Kinded n s doc st l) (ht : Tracks doc st l) (hu : Underway n doc st)
    {scope : DescId} {kind : DescKind} {path : List String} {id : ElementId} {e : Element}
    (ha : st.Allows scope kind) (hpath : st.edit.names.path? scope = some path)
    (he : doc.element? id = some e) (name : String)
    (hkind : path ≠ [] → elementKind? s doc id = some kind) :
    Kinded n s doc (st.enter doc id e scope name kind) (l.declare doc id e (path ++ [name])) := by
  intro j d' path' hj hd' hpath' hlong
  have hg := hu.sound.grown ha id e name
  obtain ⟨keep, hself⟩ := hu.path?_enter ha hpath id e he name
  rcases hu.sound.kind_enter ha id e name hd' with ⟨d, hd, hsame⟩ | ⟨hnone, rfl, rfl⟩
  · obtain ⟨x, hx⟩ := live_of_path? hpath'
    have hlive : st.edit.names.live? j = some d := by
      obtain ⟨hx, hl⟩ := live?_eq_some_iff.1 hx
      exact live?_eq_some_iff.2 ⟨hd, by rw [← hg.live hd hx, hl]⟩
    rw [hsame]
    exact Listing.firstKind?_declare (hk hj hd ((keep hlive).symm.trans hpath') hlong)
  · -- nothing has been listed at the path, as it would be the child that has just been made
    rw [hself] at hpath'
    cases hpath'
    have hnew : l.sites.find? (·.1 = path ++ [name]) = none := by
      rw [List.find?_eq_none]
      rintro ⟨path', site⟩ hmem heq
      obtain rfl : path' = path ++ [name] := by simpa using heq
      obtain ⟨other, hother, -⟩ := ht.sites.1 hmem
      have hfollow := hu.sound.tree.follow?_of_path? hother
      rw [follow?_append, hu.sound.tree.follow?_of_path? hpath, Option.bind_some, follow?, hnone] at hfollow
      cases hfollow
    have hne : path ≠ [] := by
      rintro rfl
      simp at hlong
    simp only [Listing.firstKind?, Listing.declare, Listing.put, List.find?_append, hnew,
      Option.none_or, List.find?_cons, decide_true, Option.bind_some]
    exact hkind hne

/-- What changes no desc and lists no declaration changes no kind. -/
theorem Kinded.of_descs (hk : Kinded n s doc st l) (hu : Underway n doc st) {st' : Entering}
    {l' : Listing} (hdescs : st'.edit.names.descs = st.edit.names.descs) (hsites : l'.sites = l.sites) :
    Kinded n s doc st' l' := by
  intro j d path hj hd hpath hlong
  rw [hdescs] at hd
  rw [hu.sound.tree.path?_of_descs hdescs] at hpath
  rw [Listing.firstKind?, hsites]
  exact hk hj hd hpath hlong

theorem Kinded.abreast (hk : Kinded n s doc st l) (ht : Tracks doc st l) (hu : Underway n doc st)
    {st' : Entering} {l' : Listing} (ha : Abreast s doc st l st' l') : Kinded n s doc st' l' := by
  cases ha with
  | skip => exact hk
  | declare he name allowed hpath hkind =>
    refine hk.declare ht hu allowed hpath he name fun hne => ?_
    obtain ⟨b, hb, hslot⟩ := hkind hne
    rw [elementKind?, he, Option.bind_some, hb, Option.bind_some, hslot]
  | constant => exact hk.of_descs hu rfl rfl
  | handle => exact hk.of_descs hu rfl rfl
  | other => exact hk.of_descs hu rfl rfl

end

/-! ## Updates -/

section

variable {n : Namespace}

/-- A document is put in with the kinds of its listing, and no desc leaves the tree meanwhile. -/
theorem Settled.kinded_entering (hn : Settled n) (s : Schema) {doc : Document} {root : ElementId}
    {el : Element} (hel : doc.element? root = some el) :
    Kinded n s doc ((n.withdrawn doc.id).entering s doc root el) (listingFrom s doc root el) := by
  have hw := withdrawn_spec hn.anchored doc.id
  have hstart : Kinded n s doc ⟨n.withdrawn doc.id, .start doc⟩ (.start doc) := by
    intro id d path hid hd
    have hlt := lt_size hd
    rw [hw.size] at hlt
    exact absurd hlt (Nat.not_lt.2 hid)
  exact (hn.abreast s hel hstart fun hu ht hk ha => hk.abreast ht hu ha).2.2

/-- No desc leaves the tree before an update prunes. -/
theorem Settled.live_entered (hn : Settled n) (u : Update) {id : DescId} {d : Desc}
    (hd : n.live? id = some d) : ∃ d', (u.entered n).names.live? id = some d' := by
  have hw := withdrawn_spec hn.anchored u.document
  have hback : ∃ d', (n.withdrawn u.document).names.live? id = some d' := by
    obtain ⟨hid, hl⟩ := live?_eq_some_iff.1 hd
    refine ⟨_, live?_eq_some_iff.2 ⟨by rw [hw.descs, hid, Option.map_some], ?_⟩⟩
    rw [Desc.live_without, hl]
  cases u with
  | remove document => exact hback
  | sync s doc =>
    rcases Edit.enter_cases s doc (n.withdrawn doc.id) with ⟨-, heq⟩ | ⟨root, el, -, hel, -, heq⟩
    · rw [Update.entered, heq]
      exact hback
    · rw [Update.entered, heq]
      refine (hn.entering s hel (P := fun st => ∃ d', st.edit.names.live? id = some d') hback ?_).2
      rintro st st' hu ⟨d', hd'⟩ hstep
      obtain ⟨hid, hl⟩ := live?_eq_some_iff.1 hd'
      cases hstep with
      | @declare x e scope kind _ name allowed =>
        have hg := hu.sound.grown allowed x e name
        obtain ⟨d'', hd'', -⟩ := hg.keeps hid
        exact ⟨d'', live?_eq_some_iff.2 ⟨hd'', by rw [hg.live hid hd'', hl]⟩⟩
      | constant => exact ⟨d', hd'⟩
      | handle => exact ⟨d', hd'⟩
      | other => exact ⟨d', hd'⟩

/-- A desc that has been made, and is still there, has the kind of the first declaration at its
path. -/
theorem Settled.kind_entered (hn : Settled n) (u : Update) {id : DescId} {d : Desc}
    {path : List String} (hid : n.descs.size ≤ id) (hd : (u.entered n).names.descs[id]? = some d)
    (hpath : (u.entered n).names.path? id = some path) (hlong : 1 < path.length) :
    u.firstKind? path = some d.kind := by
  have hw := withdrawn_spec hn.anchored u.document
  have hback : ∀ {e : Edit}, e = n.withdrawn u.document → e.names.descs[id]? ≠ some d := by
    rintro _ rfl h
    have hlt := lt_size h
    rw [hw.size] at hlt
    exact absurd hlt (Nat.not_lt.2 hid)
  cases u with
  | remove document => exact absurd hd (hback rfl)
  | sync s doc =>
    rcases Edit.enter_cases s doc (n.withdrawn doc.id) with ⟨-, heq⟩ | ⟨root, el, hroot, hel, hb, heq⟩
    · rw [Update.entered, heq] at hd
      exact absurd hd (hback rfl)
    · rw [Update.entered, heq] at hd hpath
      have hu := (hn.entering s hel (P := fun _ => True) trivial fun _ _ _ _ _ => trivial).1
      have hsame := hu.sound.tree.path?_of_descs
        (m := (Edit.file doc ((n.withdrawn doc.id).entering s doc root el)).names) rfl id
      rw [hsame] at hpath
      rw [Update.firstKind?, Update.content?, Option.bind_some, listing_of_bound s hroot hel hb]
      exact hn.kinded_entering s hel hid hd hpath hlong

/-- Pruning makes no desc, and changes no kind and no path. -/
theorem Unlinks.live {e e' : Edit} (h : Unlinks e e') (hs : Sound e.names e.names.documents.get?)
    {id : DescId} {d' : Desc} (hd' : e'.names.live? id = some d') :
    ∃ d, e.names.live? id = some d ∧ d'.kind = d.kind ∧ e'.names.path? id = e.names.path? id := by
  induction h with
  | refl => exact ⟨d', hd', rfl, rfl⟩
  | @step e e₁ e₂ gone parent x hx hl hb hp hu _ ih =>
    have hs₁ := hs.unlink hx hl hb hp hu
    obtain ⟨d₁, hd₁, hkind, hpath⟩ := ih hs₁ hd'
    obtain ⟨hid, hlive⟩ := live?_eq_some_iff.1 hd₁
    obtain ⟨pd, hpd, hbelow⟩ := hs.tree.below_of_parent? hx hp
    have hbefore : ∃ d, e.names.live? id = some d ∧ d₁.kind = d.kind := by
      rcases hu.cases (Nat.ne_of_lt hbelow.lt) hx hpd hid with ⟨-, rfl⟩ | ⟨rfl, rfl⟩ | ⟨-, -, hold⟩
      · cases hlive
      · exact ⟨pd, live?_eq_some_iff.2 ⟨hpd, hlive⟩, rfl⟩
      · exact ⟨d₁, live?_eq_some_iff.2 ⟨hold, hlive⟩, rfl⟩
    obtain ⟨d, hd, hkind₁⟩ := hbefore
    exact ⟨d, hd, hkind.trans hkind₁, hpath.trans (hs.tree.path?_keeps hs₁.tree hu.keeps hd hd₁)⟩

/-- A desc that an update leaves in the tree was there before, or its path was free and it has been made
for the first declaration there. -/
theorem Settled.kind_edit (hn : Settled n) (u : Update) {id : DescId} {d : Desc}
    {path : List String} (hd : (u.edit n).names.live? id = some d)
    (hpath : (u.edit n).names.path? id = some path) (hlong : 1 < path.length) :
    (∃ d₀, n.live? id = some d₀ ∧ n.path? id = some path ∧ d.kind = d₀.kind) ∨
      ¬ n.Holds (.path path) ∧ u.firstKind? path = some d.kind := by
  obtain ⟨hunlinks, hsettled⟩ := hn.update u
  have htrace := trace_edit hn u
  have hentered := (hn.entered u).1
  obtain ⟨hid, hl⟩ := live?_eq_some_iff.1 hd
  cases hold : n.descs[id]? with
  | some d₀ =>
    have hd₀ := live?_eq_some_iff.2 ⟨hold, htrace.stays hold hid hl⟩
    obtain ⟨d'', hd'', hsame⟩ := htrace.keeps hold
    rw [hid] at hd''
    cases hd''
    rw [hn.tree.path?_keeps hsettled.tree htrace.keeps hd₀ hd] at hpath
    exact .inl ⟨d₀, hd₀, hpath, hsame.kind⟩
  | none =>
    have hsize : n.descs.size ≤ id := Array.getElem?_eq_none_iff.1 hold
    obtain ⟨d₁, hd₁, hkind, hsame⟩ := hunlinks.live hentered hd
    rw [hsame] at hpath
    rw [hkind]
    refine .inr ⟨?_, hn.kind_entered u hsize (live?_eq_some_iff.1 hd₁).1 hpath hlong⟩
    rintro ⟨other, x, hx, hother⟩
    obtain ⟨x', hx'⟩ := hn.live_entered u hx
    rw [← hn.tree.path?_keeps hentered.tree (Trace.entered hn u).keeps hx hx'] at hother
    have hsame' := hentered.tree.path?_injective hother hpath
    subst hsame'
    rw [(live?_eq_some_iff.1 hx).1] at hold
    cases hold

end

/-! ## Histories -/

theorem founded_append_iff {history : List Update} {u : Update} {path : List String}
    {kind : DescKind} : Founded (history ++ [u]) path kind ↔
      (¬ Declared history path ∧ u.firstKind? path = some kind) ∨
        Founded history path kind ∧ Declared (history ++ [u]) path := by
  constructor
  · intro h
    generalize hwhole : history ++ [u] = whole at h
    cases h with
    | now hfree hfirst =>
      obtain ⟨rfl, hu⟩ := List.append_inj' hwhole rfl
      cases hu
      exact .inl ⟨hfree, hfirst⟩
    | still hfounded hdeclared =>
      obtain ⟨rfl, hu⟩ := List.append_inj' hwhole rfl
      cases hu
      exact .inr ⟨hfounded, hdeclared⟩
  · rintro (⟨hfree, hfirst⟩ | ⟨hfounded, hdeclared⟩)
    · exact .now hfree hfirst
    · exact .still hfounded hdeclared

theorem not_founded_nil {path : List String} {kind : DescKind} : ¬ Founded [] path kind := by
  intro h
  generalize hwhole : ([] : List Update) = whole at h
  cases h <;> simp at hwhole

section

variable {history : List Update} {document : DocumentId} {s : Schema} {doc : Document}
  {path : List String} {site : Site}

theorem document_of_listed (hcur : current history document = some (s, doc))
    (hmem : (path, site) ∈ (listing s doc).sites) : site.element.document = document := by
  obtain ⟨id, e, -, hsite⟩ := (listing_within s doc).sites _ hmem
  simp only at hsite
  rw [hsite, Entering.document_siteOf, id_of_current hcur]

/-- What is declared at a path is held there. -/
theorem holds_of_listed (hcur : current history document = some (s, doc))
    (hmem : (path, site) ∈ (listing s doc).sites) : (after history).Holds (.site path site) := by
  have hdocument : Item.document? (.site path site) = some document :=
    congrArg some (document_of_listed hcur hmem)
  exact (holds_of_document history hdocument).2 ⟨s, doc, hcur, hmem⟩

end

theorem holds_path_iff (history : List Update) {path : List String} (hne : path ≠ []) :
    (after history).Holds (.path path) ↔ Declared history path := by
  rw [(settled_after history).holds_path]
  constructor
  · rintro (hnil | ⟨site, hsite⟩)
    · exact absurd hnil hne
    · obtain ⟨s, doc, hcur, hmem⟩ := (holds_of_document history rfl).1 hsite
      exact ⟨_, s, doc, site, hcur, hmem⟩
  · rintro ⟨document, s, doc, site, hcur, hmem⟩
    exact .inr ⟨site, holds_of_listed hcur hmem⟩

/-- A path is declared once an update has put a first declaration there. -/
theorem declared_of_firstKind? (history : List Update) {u : Update} {path : List String}
    {kind : DescKind} (h : u.firstKind? path = some kind) : Declared (history ++ [u]) path := by
  obtain ⟨⟨s, doc⟩, hcontent, hlisted⟩ := Option.bind_eq_some_iff.1 h
  obtain ⟨⟨path', site⟩, hfind, -⟩ := Option.bind_eq_some_iff.1 hlisted
  have hpath : path' = path := by simpa using List.find?_some hfind
  have hcur : current (history ++ [u]) u.document = some (s, doc) := by
    rw [current_append, Function.update_self, hcontent]
  exact ⟨_, s, doc, site, hcur, hpath ▸ List.mem_of_find?_eq_some hfind⟩

/-- The kind of a desc below a file is the one that its path was founded with. -/
theorem kind_iff_founded (history : List Update) {path : List String} (hlong : 1 < path.length)
    (kind : DescKind) :
    (∃ id d, (after history).live? id = some d ∧ (after history).path? id = some path ∧
      d.kind = kind) ↔ Founded history path kind := by
  have hne : path ≠ [] := by
    rintro rfl
    simp at hlong
  induction history using List.reverseRecOn generalizing kind with
  | nil =>
    refine iff_of_false ?_ not_founded_nil
    rintro ⟨id, d, hd, hpath, -⟩
    obtain ⟨rfl, -⟩ := descs_empty (live?_eq_some_iff.1 hd).1
    rw [settled_after [] |>.tree.path?_root] at hpath
    exact hne (Option.some.inj hpath).symm
  | append_singleton history u ih =>
    have hn := settled_after history
    have hafter : after (history ++ [u]) = (u.edit (after history)).names := after_append history u
    rw [founded_append_iff, ← holds_path_iff history hne, ← holds_path_iff _ hne]
    constructor
    · rintro ⟨id, d, hd, hpath, rfl⟩
      have hheld : (after (history ++ [u])).Holds (.path path) := ⟨id, d, hd, hpath⟩
      rw [hafter] at hd hpath
      rcases hn.kind_edit u hd hpath hlong with ⟨d₀, hd₀, hpath₀, hkind⟩ | hnew
      · exact .inr ⟨(ih _).1 ⟨id, d₀, hd₀, hpath₀, hkind.symm⟩, hheld⟩
      · exact .inl hnew
    · rintro (⟨hfree, hfirst⟩ | ⟨hfounded, hheld⟩)
      · obtain ⟨id, d, hd, hpath⟩ := (holds_path_iff _ hne).2 (declared_of_firstKind? history hfirst)
        refine ⟨id, d, hd, hpath, ?_⟩
        rw [hafter] at hd hpath
        rcases hn.kind_edit u hd hpath hlong with ⟨d₀, hd₀, hpath₀, -⟩ | ⟨-, hkind⟩
        · exact absurd ⟨id, d₀, hd₀, hpath₀⟩ hfree
        · rw [hfirst] at hkind
          exact (Option.some.inj hkind).symm
      · obtain ⟨id, d, hd, hpath⟩ := hheld
        obtain ⟨id₀, d₀, hd₀, hpath₀, hkind₀⟩ := (ih kind).2 hfounded
        refine ⟨id, d, hd, hpath, ?_⟩
        rw [hafter] at hd hpath
        rcases hn.kind_edit u hd hpath hlong with ⟨d₁, hd₁, hpath₁, hkind⟩ | ⟨hfree, -⟩
        · have hsame := hn.tree.path?_injective hpath₀ hpath₁
          subst hsame
          rw [hd₀] at hd₁
          cases hd₁
          rw [hkind, hkind₀]
        · exact absurd ⟨id₀, d₀, hd₀, hpath₀⟩ hfree

/-! ## Declarations of the kind -/

/-- The kind that a declaration has in the document that is in the namespace. -/
def siteKind? (history : List Update) (site : Site) : Option DescKind :=
  (current history site.element.document).bind fun x => elementKind? x.1 x.2 site.element.element

/-- Every desc below a file has the kind of one of its declarations. -/
def KindsFollow (history : List Update) : Prop :=
  ∀ (id : DescId) (d : Desc) (path : List String), (after history).live? id = some d →
    (after history).path? id = some path → 1 < path.length →
    ∃ site ∈ d.sites, siteKind? history site = some d.kind

/-- A document that is in the namespace declares something of a kind at a path. -/
def DeclaredAs (history : List Update) (path : List String) (kind : DescKind) : Prop :=
  ∃ document s doc site, current history document = some (s, doc) ∧
    (path, site) ∈ (listing s doc).sites ∧ elementKind? s doc site.element.element = some kind

theorem declaredAs_iff {history : List Update} {id : DescId} {d : Desc} {path : List String}
    (hd : (after history).live? id = some d) (hpath : (after history).path? id = some path)
    (kind : DescKind) : DeclaredAs history path kind ↔
      ∃ site ∈ d.sites, siteKind? history site = some kind := by
  constructor
  · rintro ⟨document, s, doc, site, hcur, hmem, hkind⟩
    obtain ⟨id', d', hd', hpath', hsite⟩ := holds_of_listed hcur hmem
    have hid := (settled_after history).tree.path?_injective hpath hpath'
    subst hid
    rw [hd] at hd'
    cases hd'
    refine ⟨site, hsite, ?_⟩
    rw [siteKind?, document_of_listed hcur hmem, hcur, Option.bind_some, hkind]
  · rintro ⟨site, hsite, hkind⟩
    have hheld : (after history).Holds (.site path site) := ⟨id, d, hd, hpath, hsite⟩
    obtain ⟨s, doc, hcur, hmem⟩ := (holds_of_document history rfl).1 hheld
    rw [siteKind?, hcur, Option.bind_some] at hkind
    exact ⟨_, s, doc, site, hcur, hmem, hkind⟩

theorem kindsFollow_iff (history : List Update) :
    KindsFollow history ↔ ∀ (path : List String) (kind : DescKind), 1 < path.length →
      Founded history path kind → DeclaredAs history path kind := by
  constructor
  · intro h path kind hlong hfounded
    obtain ⟨id, d, hd, hpath, rfl⟩ := (kind_iff_founded history hlong kind).2 hfounded
    exact (declaredAs_iff hd hpath d.kind).2 (h id d path hd hpath hlong)
  · intro h id d path hd hpath hlong
    have hfounded := (kind_iff_founded history hlong d.kind).1 ⟨id, d, hd, hpath, rfl⟩
    exact (declaredAs_iff hd hpath d.kind).1 (h path d.kind hlong hfounded)

/-- A schema of a root, frames and animations. -/
def threeSlots : Schema where
  simpleTypes := #[]
  complexTypes := #[]
  slots := #[⟨"Desc", .desc, 0, .empty, none, none⟩, ⟨"Frame", .frame, 1, .empty, none, none⟩,
    ⟨"Animation", .animation, 2, .empty, none, none⟩]
  classes := #[]
  properties := #[]
  frameTypes := #[]
  root := 0

/-- A document `A` with a frame `X`, and `Y` inside it in a slot. -/
def nested (tag : String) (slot : SlotId) : Document where
  id := 0
  path := "A"
  elements := #[
    { Element.opened "Desc" 0 with children := [1], binding? := some ⟨0, 0⟩ },
    { Element.opened "Frame" 6 with
      attributes := [.plain "name" "X" 13], children := [2], parent? := some 0, binding? := some ⟨1, 1⟩ },
    { Element.opened tag 22 with
      attributes := [.plain "name" "Y" 29], parent? := some 1, binding? := some ⟨slot, slot⟩ }]
  root? := some 0

/-- Documents in which `Y` is a frame first, and an animation then. -/
def changed : List Update :=
  [.sync threeSlots (nested "Frame" 1), .sync threeSlots (nested "Animation" 2)]

/-- When the frame `A/X/Y` has turned into an animation, its desc is still a frame. -/
theorem not_kindsFollow_changed : ¬ KindsFollow changed := by
  intro h
  have hdesc : ((after changed).live? 3).map (fun d => (d.kind, d.sites)) =
      some (.frame, [⟨⟨0, 2⟩, 22, some 2⟩]) := by decide +kernel
  have hpath : (after changed).path? 3 = some ["A", "X", "Y"] := by decide +kernel
  have hanimation : siteKind? changed ⟨⟨0, 2⟩, 22, some 2⟩ = some .animation := by decide +kernel
  obtain ⟨d, hd, heq⟩ := Option.map_eq_some_iff.1 hdesc
  obtain ⟨hkind, hsites⟩ := Prod.mk.inj heq
  obtain ⟨site, hsite, hfollows⟩ := h 3 d _ hd hpath (by decide)
  rw [hsites, List.mem_singleton] at hsite
  rw [hsite, hanimation, hkind] at hfollows
  cases hfollows

end Namespace
end UILayout
