import UILayout.Proofs.Namespace.Abreast
import UILayout.Proofs.Namespace.Restore

/-!
# UILayout.Proofs.Namespace.Order

In which order a namespace holds what has been put in. What a document puts in comes behind all that
the other documents have put in, in the order of its listing; what these have put in keeps its order.
Names of children are the exception: a name that is there stays in its place.

* `Ordered.abreast`: every element keeps to the order.
* `Settled.arranged_edit`: where an update leaves declarations, constants and handles.
* `Settled.namesAt_edit`: where it leaves the children of a desc.
-/

namespace UILayout
namespace Namespace

open Schema Markup

/-! ## Lists without repetition -/

/-- The declarations of a desc after one more; an element declares it once. -/
def addSite (sites : List Site) (site : Site) : List Site :=
  if sites.any (·.element = site.element) then sites else sites ++ [site]

/-- The names of children after one more. -/
def addName (names : List String) (name : String) : List String :=
  if name ∈ names then names else names ++ [name]

theorem addSite_append {others : List Site} {site : Site}
    (h : ∀ other ∈ others, other.element.document ≠ site.element.document) (own : List Site) :
    addSite (others ++ own) site = others ++ addSite own site := by
  have hothers : others.any (·.element = site.element) = false := by
    rw [List.any_eq_false]
    intro other hother heq
    exact h other hother (by rw [of_decide_eq_true heq])
  unfold addSite
  rw [List.any_append, hothers, Bool.false_or]
  split
  · rfl
  · rw [List.append_assoc]

theorem mem_addSite {sites : List Site} {site x : Site} (h : x ∈ addSite sites site) :
    x ∈ sites ∨ x = site := by
  unfold addSite at h
  split at h
  · exact .inl h
  · simpa using h

theorem addSite_ne_nil (sites : List Site) (site : Site) : addSite sites site ≠ [] := by
  unfold addSite
  split
  · rename_i h
    rintro rfl
    cases h
  · simp

/-! ## Registers -/

section Register

variable {α : Type} {nameOf : α → String} {site : α → ElementRef} {document : DocumentId}

/-- The values of a name, the first one first. -/
def valuesAt (m : NameMap (List α)) (name : String) : List α := (m.get? name).getD []

/-- Registers a value behind all others of its name. -/
def enrol (nameOf : α → String) (m : NameMap (List α)) (value : α) : NameMap (List α) :=
  m.alter (nameOf value) fun values => values.getD [] ++ [value]

theorem valuesAt_enrol (m : NameMap (List α)) (values : List α) (name : String) :
    valuesAt (values.foldl (enrol nameOf) m) name =
      valuesAt m name ++ values.filter (nameOf · = name) := by
  induction values generalizing m with
  | nil => simp
  | cons value rest ih =>
    rw [List.foldl_cons, ih, List.filter_cons]
    simp only [valuesAt, enrol, OrderedMap.get?_alter]
    by_cases h : nameOf value = name
    · subst h
      simp
    · simp [h, Ne.symm h]

theorem valuesAt_dropFrom {m : NameMap (List α)} (hm : m.keys.Nodup) (name : String) :
    valuesAt (Edit.dropFrom site document m) name =
      (valuesAt m name).filter fun v => decide ((site v).document ≠ document) := by
  rw [valuesAt, valuesAt, get?_dropFrom hm]
  cases m.get? name with
  | none => rfl
  | some values =>
    rw [Option.bind_some, Option.getD_some]
    split
    · rename_i h
      rw [Option.getD_none, List.isEmpty_iff.1 h]
    · rfl

theorem dropFrom_enrol {values : List α} (h : ∀ v ∈ values, (site v).document = document)
    (m : NameMap (List α)) :
    Edit.dropFrom site document (values.foldl (enrol nameOf) m) = Edit.dropFrom site document m := by
  induction values generalizing m with
  | nil => rfl
  | cons value rest ih =>
    rw [List.foldl_cons, ih fun v hv => h v (List.mem_cons_of_mem _ hv)]
    exact dropFrom_alter (h value List.mem_cons_self) _

end Register

/-! ## What stands where -/

/-- The declarations of a desc, the first one first. -/
def sitesAt (n : Namespace) (id : DescId) : List Site := ((n.descs[id]?).map (·.sites)).getD []

/-- The names of the children of a desc, in their order. -/
def namesAt (n : Namespace) (id : DescId) : List String :=
  ((n.descs[id]?).map (·.children.keys)).getD []

/-- A document declares a path, and this is its desc. -/
def DeclaresAt (n : Namespace) (document : DocumentId) (id : DescId) (path : List String) : Prop :=
  n.path? id = some path ∧ n.HasSite id document

/-- A handle is what a listing says. -/
def HandleIs (n : Namespace) (document : DocumentId) (h : Handle)
    (listed : String × List String × ElementRef) : Prop :=
  h.name = listed.1 ∧ n.DeclaresAt document h.desc listed.2.1 ∧ h.site = listed.2.2

/-- A place is what a listing says. -/
def PlaceIs (n : Namespace) (document : DocumentId) (pl : Place) (spot : Spot) : Prop :=
  n.DeclaresAt document pl.scope spot.path ∧
    pl.declares? = if spot.declares then some pl.scope else none

section

variable {n m : Namespace} {document : DocumentId} {id : DescId} {path : List String}

theorem DeclaresAt.of_descs (h : n.DeclaresAt document id path) (tree : IsTree n)
    (hd : m.descs = n.descs) : m.DeclaresAt document id path := by
  obtain ⟨hpath, d, hid, hsite⟩ := h
  exact ⟨(tree.path?_of_descs hd id).trans hpath, d, by rw [hd, hid], hsite⟩

theorem DeclaresAt.sameIn (h : n.DeclaresAt document id path) (hsame : SameIn document n m)
    {filed filed' : DocumentId → Option Contribution} (hn : Sound n filed) (hm : Sound m filed') :
    m.DeclaresAt document id path :=
  ⟨(hsame.path?_eq hn hm h.2).trans h.1, hsame.hasSite.2 h.2⟩

theorem HandleIs.imp {h : Handle} {listed : String × List String × ElementRef}
    (hh : n.HandleIs document h listed)
    (keep : ∀ {id : DescId} {path : List String}, n.DeclaresAt document id path →
      m.DeclaresAt document id path) : m.HandleIs document h listed :=
  ⟨hh.1, keep hh.2.1, hh.2.2⟩

end

namespace Listing

/-- The declarations of a path, in their order. -/
def sitesAt (l : Listing) (path : List String) : List Site :=
  ((l.sites.filter (·.1 = path)).map (·.2)).foldl addSite []

/-- The name that a path has right below another one. -/
def below? (path other : List String) : Option String :=
  if other.dropLast = path then other.getLast? else none

/-- The names that are declared right below a path, once for each declaration. -/
def namesBelow (l : Listing) (path : List String) : List String :=
  l.sites.filterMap fun x => below? path x.1

theorem below?_append (path other : List String) (name : String) :
    below? path (other ++ [name]) = if other = path then some name else none := by
  simp [below?]

section

variable (l : Listing) (doc : Document) (id : ElementId) (e : Element) (path other : List String)

theorem sitesAt_declare : (l.declare doc id e path).sitesAt other =
    if path = other then addSite (l.sitesAt other) (Entering.siteOf doc id e)
    else l.sitesAt other := by
  simp only [sitesAt, declare, put, List.filter_append, List.filter_cons, List.filter_nil]
  by_cases h : path = other
  · simp [h, List.foldl_append]
  · simp [h]

theorem namesBelow_declare (name : String) : (l.declare doc id e (path ++ [name])).namesBelow other =
    l.namesBelow other ++ if path = other then [name] else [] := by
  simp only [namesBelow, declare, put, List.filterMap_append, List.filterMap_cons, List.filterMap_nil,
    below?_append]
  split <;> simp_all

end

/-- All that is listed stands in one document. -/
structure StandsIn (l : Listing) (document : DocumentId) : Prop where
  sites : ∀ x ∈ l.sites, x.2.element.document = document
  constants : ∀ c ∈ l.constants, c.site.document = document
  handles : ∀ h ∈ l.handles, h.2.2.document = document

theorem Within.standsIn {l : Listing} {doc : Document} (h : l.Within doc) : l.StandsIn doc.id := by
  refine ⟨fun x hx => ?_, h.constants, h.handles⟩
  obtain ⟨id, el, -, heq⟩ := h.sites x hx
  rw [heq]
  rfl

theorem StandsIn.sitesAt {l : Listing} {document : DocumentId} (h : l.StandsIn document)
    {path : List String} {site : Site} (hs : site ∈ l.sitesAt path) :
    site.element.document = document := by
  have run : ∀ (more own : List Site), (∀ x ∈ more, x.element.document = document) →
      (∀ x ∈ own, x.element.document = document) →
        ∀ x ∈ more.foldl addSite own, x.element.document = document := by
    intro more
    induction more with
    | nil => exact fun own _ hown => hown
    | cons site rest ih =>
      intro own hmore hown
      refine ih _ (fun x hx => hmore x (List.mem_cons_of_mem _ hx)) fun x hx => ?_
      rcases mem_addSite hx with hx | rfl
      · exact hown x hx
      · exact hmore x List.mem_cons_self
  refine run _ [] ?_ nofun site hs
  intro x hx
  obtain ⟨y, hy, rfl⟩ := List.mem_map.1 hx
  exact h.sites y (List.mem_of_mem_filter hy)

theorem sitesAt_ne_nil {l : Listing} {path : List String} {site : Site} (h : (path, site) ∈ l.sites) :
    l.sitesAt path ≠ [] := by
  have hmem : site ∈ (l.sites.filter (·.1 = path)).map (·.2) :=
    List.mem_map.2 ⟨_, List.mem_filter.2 ⟨h, by simp⟩, rfl⟩
  unfold sitesAt
  generalize (l.sites.filter (·.1 = path)).map (·.2) = more at hmem
  cases more using List.reverseRecOn with
  | nil => cases hmem
  | append_singleton rest last =>
    rw [List.foldl_append]
    exact addSite_ne_nil _ _

theorem exists_site {l : Listing} {path : List String} (h : l.sitesAt path ≠ []) :
    ∃ site, (path, site) ∈ l.sites := by
  by_contra hnone
  apply h
  have hempty : l.sites.filter (·.1 = path) = [] := by
    rw [List.filter_eq_nil_iff]
    rintro ⟨other, site⟩ hmem heq
    obtain rfl : other = path := by simpa using heq
    exact hnone ⟨site, hmem⟩
  rw [sitesAt, hempty]
  rfl

end Listing

/-! ## Putting in -/

section Entering

variable {n : Namespace} {doc : Document} {st st' : Entering} {l l' : Listing}

theorem sitesAt_of_descs {id : DescId} {d : Desc} (hd : n.descs[id]? = some d) :
    n.sitesAt id = d.sites := by
  rw [sitesAt, hd]
  rfl

theorem namesAt_of_descs {id : DescId} {d : Desc} (hd : n.descs[id]? = some d) :
    n.namesAt id = d.children.keys := by
  rw [namesAt, hd]
  rfl

section Enter

variable {scope : DescId} {kind : DescKind} {base : DocumentId → Option Contribution}

/-- A declaration comes last at the desc that it goes to. -/
theorem Sound.sitesAt_enter (h : Sound st.edit.names (st.filed base doc)) (ha : st.Allows scope kind)
    (id : ElementId) (e : Element) (name : String) (j : DescId) :
    (st.enter doc id e scope name kind).edit.names.sitesAt j =
      if j = st.edit.childOf scope name kind then
        addSite (st.edit.names.sitesAt j) (Entering.siteOf doc id e)
      else st.edit.names.sitesAt j := by
  obtain ⟨p, hp, -⟩ := h.scope ha
  rw [Entering.edit_enter, sitesAt, sitesAt]
  cases hc : p.children.get? name with
  | some child =>
    have hold := Edit.declareChild_old hp hc kind (Entering.siteOf doc id e)
    obtain ⟨d, hd, -⟩ := h.tree.child hp hc
    rw [Edit.childOf, Edit.ensureChild_of_some hp hc, hold.descs]
    by_cases hj : j = child
    · subst hj
      rw [if_pos rfl, if_pos rfl, hd]
      exact Desc.sites_declared _ _ _
    · rw [if_neg hj, if_neg hj]
  | none =>
    have hnew := Edit.declareChild_new hp hc kind (Entering.siteOf doc id e)
    rw [Edit.childOf, Edit.ensureChild_of_none hp hc]
    by_cases hj : j = st.edit.names.descs.size
    · subst hj
      rw [if_pos rfl, hnew.descs_new, Array.getElem?_eq_none (Nat.le_refl _)]
      rfl
    · rw [if_neg hj, hnew.descs, if_neg hj]
      split
      · rw [Option.map_map]
        rfl
      · rfl

/-- A name that is new comes last among the children of the desc around it. -/
theorem Sound.namesAt_enter (h : Sound st.edit.names (st.filed base doc)) (ha : st.Allows scope kind)
    (id : ElementId) (e : Element) (name : String) (j : DescId) :
    (st.enter doc id e scope name kind).edit.names.namesAt j =
      if j = scope then addName (st.edit.names.namesAt j) name else st.edit.names.namesAt j := by
  obtain ⟨p, hp, -⟩ := h.scope ha
  have hmem := OrderedMap.mem_keys_iff p.children name
  rw [Entering.edit_enter, namesAt, namesAt]
  cases hc : p.children.get? name with
  | some child =>
    have hold := Edit.declareChild_old hp hc kind (Entering.siteOf doc id e)
    have hkeys : ((st.edit.declareChild scope name kind
        (Entering.siteOf doc id e)).names.descs[j]?).map (·.children.keys) =
          (st.edit.names.descs[j]?).map (·.children.keys) := by
      rw [hold.descs]
      split
      · rw [Option.map_map]
        congr 1
        funext d
        exact congrArg OrderedMap.keys (Desc.children_declared _ _ d)
      · rfl
    rw [hkeys]
    split
    · rename_i hj
      subst hj
      simp only [hp, Option.map_some, Option.getD_some, addName, if_pos (hmem.2 ⟨child, hc⟩)]
    · rfl
  | none =>
    have hnew := Edit.declareChild_new hp hc kind (Entering.siteOf doc id e)
    by_cases hj : j = st.edit.names.descs.size
    · subst hj
      rw [hnew.descs_new, Array.getElem?_eq_none (Nat.le_refl _), if_neg (Nat.ne_of_gt (lt_size hp))]
      rfl
    · rw [hnew.descs, if_neg hj]
      split
      · rename_i hscope
        subst hscope
        simp only [hp, Option.map_some, Option.getD_some]
        exact OrderedMap.keys_put _ _ _
      · rfl

end Enter

/-- What a document has put in stands behind all else, as it is listed. -/
structure Arranged (n m : Namespace) (document : DocumentId) (l : Listing) : Prop where
  sites : ∀ {id : DescId} {path : List String}, m.path? id = some path →
    m.sitesAt id = (n.sitesAt id).filter (·.element.document ≠ document) ++ l.sitesAt path
  constants : m.constants =
    l.constants.foldl (enrol Constant.name) (Edit.dropFrom (·.site) document n.constants)
  handles : ∃ hs, List.Forall₂ (m.HandleIs document) hs l.handles ∧
    m.handles = hs.foldl (enrol Handle.name) (Edit.dropFrom (·.site) document n.handles)

/-- A document that has been put in so far stands behind all else, and its descs are in the order of
the listing. -/
structure Ordered (n : Namespace) (doc : Document) (st : Entering) (l : Listing) : Prop
    extends Arranged n st.edit.names doc.id l where
  keeps : n.Keeps st.edit.names
  descs : List.Forall₂ (fun id x => st.edit.names.DeclaresAt doc.id id x.1) st.here.descs l.sites
  names : ∀ {id : DescId} {path : List String}, st.edit.names.path? id = some path →
    st.edit.names.namesAt id = (l.namesBelow path).foldl addName (n.namesAt id)

theorem Ordered.start (hn : Settled n) (doc : Document) :
    Ordered n doc ⟨n.withdrawn doc.id, .start doc⟩ (.start doc) := by
  have hw := withdrawn_spec hn.anchored doc.id
  refine ⟨⟨?_, hw.constants, [], .nil, hw.handles⟩, hw.keeps, .nil, ?_⟩
  · intro id path _
    rw [sitesAt, hw.descs, sitesAt]
    cases n.descs[id]? with
    | none => rfl
    | some d =>
      simp only [Option.map_some, Option.getD_some, Desc.sites_without]
      exact (List.append_nil _).symm
  · intro id path _
    rw [namesAt, hw.descs, namesAt]
    cases n.descs[id]? with
    | none => rfl
    | some d =>
      simp only [Option.map_some, Option.getD_some, Desc.children_without]
      rfl

/-- Where nothing stands nothing has been listed. -/
theorem Tracks.sitesAt_eq_nil (h : Tracks doc st l) {path : List String}
    (hfree : ∀ id, st.edit.names.path? id ≠ some path) : l.sitesAt path = [] := by
  by_contra hne
  obtain ⟨site, hsite⟩ := Listing.exists_site hne
  obtain ⟨id, hid, -⟩ := h.sites.1 hsite
  exact hfree id hid

theorem Tracks.namesBelow_eq_nil (h : Tracks doc st l) (hu : Underway n doc st) {path : List String}
    (hfree : ∀ id, st.edit.names.path? id ≠ some path) : l.namesBelow path = [] := by
  rw [Listing.namesBelow, List.filterMap_eq_nil_iff]
  rintro ⟨other, site⟩ hmem
  obtain ⟨id, hid, -⟩ := h.sites.1 hmem
  rw [Listing.below?]
  split
  · rename_i hpath
    dsimp only at hpath ⊢
    rw [List.getLast?_eq_none_iff]
    by_contra hne
    have hfollow := hu.sound.tree.follow?_of_path? hid
    rw [← List.dropLast_append_getLast hne, hpath, follow?_append] at hfollow
    obtain ⟨above, habove, -⟩ := Option.bind_eq_some_iff.1 hfollow
    exact hfree above ((hu.sound.tree.follow?_iff _ _).1 habove)
  · rfl

theorem Ordered.declare (h : Ordered n doc st l) (hu : Underway n doc st) (ht : Tracks doc st l)
    {id : ElementId} {e : Element} {scope : DescId} {kind : DescKind} {path : List String}
    (he : doc.element? id = some e) (name : String) (ha : st.Allows scope kind)
    (hpath : st.edit.names.path? scope = some path) :
    Ordered n doc (st.enter doc id e scope name kind) (l.declare doc id e (path ++ [name])) := by
  have hg := hu.sound.grown ha id e name
  have hu' := hu.step (.declare he name ha)
  obtain ⟨keep, hself⟩ := hu.path?_enter ha hpath id e he name
  have keepPath : ∀ {j : DescId} {p : List String}, st.edit.names.path? j = some p →
      (st.enter doc id e scope name kind).edit.names.path? j = some p := by
    intro j p hp
    obtain ⟨d, hd⟩ := live_of_path? hp
    rw [keep hd, hp]
  have keepAt : ∀ {j : DescId} {p : List String}, st.edit.names.DeclaresAt doc.id j p →
      (st.enter doc id e scope name kind).edit.names.DeclaresAt doc.id j p :=
    fun hp => ⟨keepPath hp.1, hg.hasSite hp.2⟩
  -- a desc that is there has kept its path, and of one that has just been made nothing was known
  have before : ∀ {j : DescId} {p : List String},
      (st.enter doc id e scope name kind).edit.names.path? j = some p →
        st.edit.names.sitesAt j =
          (n.sitesAt j).filter (·.element.document ≠ doc.id) ++ l.sitesAt p ∧
        st.edit.names.namesAt j = (l.namesBelow p).foldl addName (n.namesAt j) := by
    intro j p hp
    cases hj : st.edit.names.descs[j]? with
    | some d =>
      obtain ⟨d', hd'⟩ := live_of_path? hp
      obtain ⟨hd', hl⟩ := live?_eq_some_iff.1 hd'
      have hlive : st.edit.names.live? j = some d :=
        live?_eq_some_iff.2 ⟨hj, by rw [← hg.live hj hd', hl]⟩
      rw [keep hlive] at hp
      exact ⟨h.sites hp, h.names hp⟩
    | none =>
      have hfree : ∀ other, st.edit.names.path? other ≠ some p := by
        intro other hother
        have hsame := hu'.sound.tree.path?_injective (keepPath hother) hp
        subst hsame
        obtain ⟨d, hd⟩ := live_of_path? hother
        rw [(live?_eq_some_iff.1 hd).1] at hj
        cases hj
      have hnew : n.descs[j]? = none := by
        by_contra hne
        obtain ⟨d, hd⟩ := Option.ne_none_iff_exists'.1 hne
        obtain ⟨d', hd', -⟩ := h.keeps hd
        rw [hj] at hd'
        cases hd'
      rw [sitesAt, namesAt, sitesAt, namesAt, hj, hnew, ht.sitesAt_eq_nil hfree,
        ht.namesBelow_eq_nil hu hfree]
      exact ⟨rfl, rfl⟩
  have hothers : ∀ j, ∀ other ∈ (n.sitesAt j).filter (·.element.document ≠ doc.id),
      other.element.document ≠ (Entering.siteOf doc id e).element.document := by
    intro j other hother
    simpa using (List.mem_filter.1 hother).2
  obtain ⟨hs, hlisted, hhandles⟩ := h.handles
  refine ⟨⟨?_, hg.constants.trans h.constants, hs, ?_, hg.handles.trans hhandles⟩,
    h.keeps.trans hg.keeps, ?_, ?_⟩
  · intro j p hp
    rw [hu.sound.sitesAt_enter ha, Listing.sitesAt_declare, (before hp).1]
    by_cases hj : j = st.edit.childOf scope name kind
    · subst hj
      rw [hself] at hp
      cases hp
      rw [if_pos rfl, if_pos rfl, addSite_append (hothers _)]
    · have hne : path ++ [name] ≠ p := by
        rintro rfl
        exact hj (hu'.sound.tree.path?_injective hp hself)
      rw [if_neg hj, if_neg hne]
  · exact hlisted.imp fun _ _ hh => hh.imp keepAt
  · rw [Entering.descs_enter]
    exact List.rel_append (h.descs.imp fun _ _ hp => keepAt hp)
      (.cons ⟨hself, hg.hasSite_self⟩ .nil)
  · intro j p hp
    rw [hu.sound.namesAt_enter ha, Listing.namesBelow_declare, (before hp).2]
    by_cases hj : j = scope
    · subst hj
      rw [keepPath hpath] at hp
      cases hp
      rw [if_pos rfl, if_pos rfl, List.foldl_append]
      rfl
    · have hne : path ≠ p := by
        rintro rfl
        exact hj (hu'.sound.tree.path?_injective hp (keepPath hpath))
      rw [if_neg hj, if_neg hne, List.append_nil]

/-- What changes no desc and lists no declaration leaves all but the registers as it is. -/
theorem Ordered.of_descs (h : Ordered n doc st l) (hu : Underway n doc st)
    (hdescs : st'.edit.names.descs = st.edit.names.descs) (hhere : st'.here.descs = st.here.descs)
    (hsites : l'.sites = l.sites)
    (hconstants : st'.edit.names.constants =
      l'.constants.foldl (enrol Constant.name) (Edit.dropFrom (·.site) doc.id n.constants))
    (hhandles : ∃ hs, List.Forall₂ (st'.edit.names.HandleIs doc.id) hs l'.handles ∧
      st'.edit.names.handles = hs.foldl (enrol Handle.name) (Edit.dropFrom (·.site) doc.id n.handles)) :
    Ordered n doc st' l' := by
  have hpaths := hu.sound.tree.path?_of_descs hdescs
  refine ⟨⟨fun {id path} hp => ?_, hconstants, hhandles⟩, ?_, ?_, fun {id path} hp => ?_⟩
  · rw [hpaths] at hp
    rw [sitesAt, hdescs, Listing.sitesAt, hsites]
    exact h.sites hp
  · intro id d hd
    rw [hdescs]
    exact h.keeps hd
  · rw [hhere, hsites]
    exact h.descs.imp fun _ _ ha => ha.of_descs hu.sound.tree hdescs
  · rw [hpaths] at hp
    rw [namesAt, hdescs, Listing.namesBelow, hsites]
    exact h.names hp

theorem Ordered.abreast (h : Ordered n doc st l) (hu : Underway n doc st) (ht : Tracks doc st l)
    {s : Schema} (ha : Abreast s doc st l st' l') : Ordered n doc st' l' := by
  obtain ⟨hs, hlisted, hhandles⟩ := h.handles
  cases ha with
  | skip => exact h
  | declare he name allowed hpath _ => exact h.declare hu ht he name allowed hpath
  | constant hpl hpath hc =>
    refine h.of_descs hu rfl rfl rfl ?_ ⟨hs, ?_, hhandles⟩
    · refine Eq.trans ?_ (List.foldl_append ..).symm
      rw [← h.constants]
      rfl
    · exact hlisted.imp fun _ _ hh => hh.imp fun ha => ha.of_descs hu.sound.tree rfl
  | @handle parent id pl path hpl hpath name =>
    have hdescs : (st.edit.addHandle ⟨name, pl.scope, doc.ref id⟩).names.descs =
        st.edit.names.descs := rfl
    have hpaths := hu.sound.tree.path?_of_descs hdescs
    have hsite := (hu.sound.anchored.place (Function.update_self ..) hpl).1
    refine h.of_descs hu rfl rfl rfl h.constants ⟨hs ++ [⟨name, pl.scope, doc.ref id⟩], ?_, ?_⟩
    · refine List.rel_append ?_ (.cons ⟨rfl, ⟨(hpaths _).trans hpath, hsite⟩, rfl⟩ .nil)
      exact hlisted.imp fun _ _ hh => hh.imp fun ha => ha.of_descs hu.sound.tree hdescs
    · refine Eq.trans ?_ (List.foldl_append ..).symm
      rw [← hhandles]
      rfl
  | other => exact h.of_descs hu rfl rfl rfl h.constants ⟨hs, hlisted, hhandles⟩

end Entering

/-! ## Updates -/

/-- What an update puts in. -/
def Update.listing : Update → Listing
  | .sync s doc => Namespace.listing s doc
  | .remove _ => ⟨[], [], [], #[]⟩

theorem Update.standsIn_listing (u : Update) : u.listing.StandsIn u.document := by
  cases u with
  | sync s doc => exact (listing_within s doc).standsIn
  | remove document => exact ⟨nofun, nofun, nofun⟩

/-- An update puts in a document with a bound root. -/
def Update.Enters : Update → Prop
  | .sync _ doc => ∃ root e, doc.root? = some root ∧ doc.element? root = some e ∧
      e.binding?.isSome = true
  | .remove _ => False

/-- What is filed for a document is what a listing says. -/
structure Files (m : Namespace) (document : DocumentId) (c : Contribution) (l : Listing) : Prop where
  descs : List.Forall₂ (fun id x => m.DeclaresAt document id x.1) c.descs l.sites
  size : c.places.size = l.spots.size
  places : ∀ id, Option.Rel (m.PlaceIs document) (c.place? id) (l.spot? id)

section Updates

variable {n : Namespace} {doc : Document} {document : DocumentId} {l : Listing}

theorem Tracks.files {st : Entering} (ht : Tracks doc st l) (ho : Ordered n doc st l)
    (hu : Underway n doc st) : Files st.edit.names doc.id st.here l := by
  refine ⟨ho.descs, ht.size.symm, fun id => ?_⟩
  cases hpl : st.here.place? id with
  | none =>
    rw [ht.spots, hpl]
    exact .none
  | some pl =>
    obtain ⟨path, hpath, hspot⟩ := ht.spot hu hpl
    obtain ⟨hsite, hnone | hself⟩ := hu.sound.anchored.place (Function.update_self ..) hpl
    · rw [hspot]
      exact .some ⟨⟨hpath, hsite⟩, by rw [hnone]; rfl⟩
    · rw [hspot]
      exact .some ⟨⟨hpath, hsite⟩, by rw [hself]; rfl⟩

theorem Files.imp {m m' : Namespace} {c : Contribution} (h : Files m document c l)
    (keep : ∀ {id : DescId} {path : List String}, m.DeclaresAt document id path →
      m'.DeclaresAt document id path) : Files m' document c l := by
  refine ⟨h.descs.imp fun _ _ ha => keep ha, h.size, fun id => ?_⟩
  have hplace := h.places id
  generalize c.place? id = pl at hplace
  generalize l.spot? id = spot at hplace
  cases hplace with
  | none => exact .none
  | some hp => exact .some ⟨keep hp.1, hp.2⟩

theorem Arranged.imp {m m' : Namespace} (h : Arranged n m document l)
    (keep : ∀ {id : DescId} {path : List String}, m.DeclaresAt document id path →
      m'.DeclaresAt document id path)
    (hsites : ∀ {id : DescId} {path : List String}, m'.path? id = some path →
      m.path? id = some path ∧ m'.sitesAt id = m.sitesAt id)
    (hconstants : m'.constants = m.constants) (hhandles : m'.handles = m.handles) :
    Arranged n m' document l := by
  obtain ⟨hs, hlisted, heq⟩ := h.handles
  refine ⟨?_, hconstants.trans h.constants, hs, hlisted.imp fun _ _ hh => hh.imp keep,
    hhandles.trans heq⟩
  intro id path hp
  obtain ⟨hp', hsame⟩ := hsites hp
  rw [hsame, h.sites hp']

/-! ### Before pruning -/

/-- How an update leaves a namespace before it prunes. -/
structure Laid (n : Namespace) (u : Update) (e : Edit) : Prop
    extends Arranged n e.names u.document u.listing where
  names : ∀ {id : DescId} {path : List String}, e.names.path? id = some path →
    e.names.namesAt id = (u.listing.namesBelow path).foldl addName (n.namesAt id)
  documents : ¬ u.Enters ∧ e.names.documents = n.documents.erase u.document ∨
    u.Enters ∧ ∃ c, e.names.documents = (n.documents.erase u.document).put u.document c ∧
      Files e.names u.document c u.listing

theorem Settled.laid_entered (hn : Settled n) (u : Update) : Laid n u (u.entered n) := by
  have hw := withdrawn_spec hn.anchored u.document
  cases u with
  | remove document =>
    -- nothing is listed, as of a document that has not begun to be put in
    have ho := Ordered.start hn { id := document, path := "", elements := #[], root? := none }
    exact ⟨⟨ho.sites, ho.constants, ho.handles⟩, ho.names, .inl ⟨id, hw.documents⟩⟩
  | sync s doc =>
    rcases Edit.enter_cases s doc (n.withdrawn doc.id) with
      ⟨hunbound, heq⟩ | ⟨root, el, hroot, hel, hb, heq⟩
    · have ho := Ordered.start hn doc
      rw [Update.entered, heq]
      have hlisting : (Update.sync s doc).listing = .start doc := listing_of_unbound s hunbound
      have hout : ¬ (Update.sync s doc).Enters := by
        rintro ⟨root, el, hroot, hel, hb⟩
        rw [hunbound root el hroot hel] at hb
        cases hb
      refine ⟨?_, ?_, .inl ⟨hout, hw.documents⟩⟩
      · rw [hlisting]
        exact ho.toArranged
      · rw [hlisting]
        exact ho.names
    · obtain ⟨hu, ht, ho⟩ := hn.abreast s hel (P := Ordered n doc) (Ordered.start hn doc)
        fun hu ht ho ha => ho.abreast hu ht ha
      have hlisting : (Update.sync s doc).listing = listingFrom s doc root el :=
        listing_of_bound s hroot hel hb
      rw [Update.entered, heq]
      generalize (n.withdrawn doc.id).entering s doc root el = st at hu ht ho
      generalize listingFrom s doc root el = l at ht ho hlisting
      have hdescs : (Edit.file doc st).names.descs = st.edit.names.descs := rfl
      have hpaths := hu.sound.tree.path?_of_descs hdescs
      have keep : ∀ {id : DescId} {path : List String}, st.edit.names.DeclaresAt doc.id id path →
          (Edit.file doc st).names.DeclaresAt doc.id id path :=
        fun ha => ha.of_descs hu.sound.tree hdescs
      refine ⟨?_, ?_, .inr ⟨⟨root, el, hroot, hel, hb⟩, st.here, ?_, ?_⟩⟩
      · rw [hlisting]
        exact ho.toArranged.imp keep (fun {id _} hp => ⟨(hpaths id).symm.trans hp, rfl⟩) rfl rfl
      · rw [hlisting]
        exact fun {id p} hp => ho.names ((hpaths id).symm.trans hp)
      · exact congrArg (·.put doc.id st.here) hu.documents
      · rw [hlisting]
        exact (ht.files ho hu).imp keep

/-! ### Pruning -/

theorem Unlinks.sitesAt {e e' : Edit} (h : Unlinks e e') (id : DescId) :
    e'.names.sitesAt id = e.names.sitesAt id := by
  induction h with
  | refl => rfl
  | step hd hl hb hp hu _ ih =>
    rw [ih, Namespace.sitesAt, Namespace.sitesAt, hu.descs]
    split
    · rw [Option.map_map]
      rfl
    split
    · rw [Option.map_map]
      rfl
    · rfl

/-- Children only leave, and the others keep their order. -/
theorem Unlinks.namesAt {e e' : Edit} (h : Unlinks e e') (id : DescId) :
    (e'.names.namesAt id).Sublist (e.names.namesAt id) := by
  induction h with
  | refl => exact .refl _
  | @step e _ _ gone parent d hd hl hb hp hu _ ih =>
    refine ih.trans ?_
    rw [Namespace.namesAt, Namespace.namesAt, hu.descs]
    split
    · rw [Option.map_map]
      exact .refl _
    split
    · rw [Option.map_map]
      cases e.names.descs[id]? with
      | none => exact .refl _
      | some p => exact List.filter_sublist.map _
    · exact .refl _

theorem Unlinks.path? {e e' : Edit} (h : Unlinks e e') (hs : Sound e.names e.names.documents.get?)
    {id : DescId} {path : List String} (hp : e'.names.path? id = some path) :
    e.names.path? id = some path := by
  obtain ⟨d', hd'⟩ := live_of_path? hp
  obtain ⟨-, -, -, hsame⟩ := h.live hs hd'
  exact hsame.symm.trans hp

theorem Settled.declaresAt_edit (hn : Settled n) (u : Update) {id : DescId} {path : List String}
    (h : (u.entered n).names.DeclaresAt document id path) :
    (u.edit n).names.DeclaresAt document id path := by
  obtain ⟨hun, hsettled⟩ := hn.update u
  have hsound := (hn.entered u).1
  exact h.sameIn (hun.sameIn hsound document) hsound hsettled.toSound

theorem Settled.arranged_edit (hn : Settled n) (u : Update) :
    Arranged n (u.edit n).names u.document u.listing := by
  have hun := (hn.update u).1
  obtain ⟨hconstants, hhandles, -⟩ := hun.registers
  exact (hn.laid_entered u).toArranged.imp (hn.declaresAt_edit u)
    (fun {id _} hp => ⟨hun.path? (hn.entered u).1 hp, hun.sitesAt id⟩) hconstants hhandles

/-- An update files what is listed, behind the other documents. -/
theorem Settled.documents_edit (hn : Settled n) (u : Update) :
    ¬ u.Enters ∧ (u.edit n).names.documents = n.documents.erase u.document ∨
      u.Enters ∧ ∃ c, (u.edit n).names.documents = (n.documents.erase u.document).put u.document c ∧
        Files (u.edit n).names u.document c u.listing := by
  obtain ⟨-, -, hdocuments⟩ := (hn.update u).1.registers
  rcases (hn.laid_entered u).documents with ⟨hout, heq⟩ | ⟨hin, c, heq, hfiles⟩
  · exact .inl ⟨hout, hdocuments.trans heq⟩
  · exact .inr ⟨hin, c, hdocuments.trans heq, hfiles.imp (hn.declaresAt_edit u)⟩

/-- An update leaves the children that stay in their places, and puts new ones behind them in the order
of the listing. -/
theorem Settled.namesAt_edit (hn : Settled n) (u : Update) {id : DescId} {path : List String}
    (hp : (u.edit n).names.path? id = some path) :
    ((u.edit n).names.namesAt id).Sublist
      ((u.listing.namesBelow path).foldl addName (n.namesAt id)) := by
  have hun := (hn.update u).1
  rw [← (hn.laid_entered u).names (hun.path? (hn.entered u).1 hp)]
  exact hun.namesAt id

end Updates

end Namespace
end UILayout
