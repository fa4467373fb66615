import UILayout.Hierarchy.Resolve
import UILayout.Proofs.Hierarchy.Walk
import UILayout.Proofs.Strict.Nodes

/-!
# UILayout.Proofs.Strict.Walk

Strict forms of what is asked of the hierarchy. A node that is asked for has to be live, the parent of
a node has to be made before it, and a desc has to be in the tree.

* `live_descs`, `live_slot`: the descs that nodes are made from are in the tree.
* `child_eq`, `step_eq`, `selectSteps_eq`: walks.
* `resolve_eq`: what a path stands for.
-/

namespace UILayout
namespace Strict

open Schema Markup Selector Namespace Hierarchy

/-! ## Walks -/

def expand (ctx : Context) (h : Hierarchy) (id : NodeId) : Option Hierarchy :=
  (h.live? id).map fun _ => h.expand ctx id

def child (ctx : Context) (h : Hierarchy) (id : NodeId) (name : String) :
    Option (Option NodeId × Hierarchy) := do
  let h ← expand ctx h id
  match h.branch? id name with
  | none => return (none, h)
  | some .missing => return (none, h)
  | some (.built node) => (h.live? node).map fun _ => (some node, h)
  | some (.pending descs) =>
    match ← makeNode ctx name descs id with
    | .ok n =>
      let made := h.add n
      return (some made.1, made.2.setBranch id name (.built made.1))
    | .error read =>
      let h := h.modify id fun n => { n with read := n.read ++ read }
      return (none, h.setBranch id name .missing)

def descend (ctx : Context) (h : Hierarchy) (id : NodeId) :
    List String → Option (Option NodeId × Hierarchy)
  | [] => some (some id, h)
  | name :: rest =>
    (child ctx h id name).bind fun found =>
      match found.1 with
      | some node => descend ctx found.2 node rest
      | none => some (none, found.2)

/-- The walk from the desc up to the root has to end there. -/
def ofDesc (ctx : Context) (h : Hierarchy) (id : DescId) : Option (Option NodeId × Hierarchy) := do
  let names ← namesUp? ctx.names id
  descend ctx h.rootNode.2 h.rootNode.1 names.reverse

def parent (h : Hierarchy) (id : NodeId) : Option (Option NodeId) := (h.live? id).map (·.parent?)

def ancestors (h : Hierarchy) (id : NodeId) : Option (List NodeId) :=
  (parent h id).bind fun parent? =>
    match parent? with
    | none => some []
    | some parent => if parent < id then (ancestors h parent).map (parent :: ·) else none

def isFrame (h : Hierarchy) (id : NodeId) : Option Bool := (h.live? id).map (·.kind = .frame)

def layer (h : Hierarchy) (id : NodeId) : Option (Option NodeId) := do
  let around ← ancestors h id
  let frames ← (id :: around).mapM fun a => (isFrame h a).map (a, ·)
  return ((frames.filter (·.2)).map (·.1)).getLast?

def frameType (ctx : Context) (h : Hierarchy) (id : NodeId) : Option (Option FrameType) :=
  (h.live? id).bind fun n => entry ctx.schema.frameTypes n.frameType?

def passes (ctx : Context) (h : Hierarchy) (id : NodeId) (p : Param) : Option Bool :=
  match p.filter? with
  | some .name => (h.live? id).map (·.name = p.value.text)
  | some .type => (frameType ctx h id).map (·.any (·.name = p.value.text))
  | some .ofType =>
    (frameType ctx h id).bind fun f? =>
      match f? with
      | none => some false
      | some f => isOfKind ctx.schema f p.value.text
  | none => some false

def step (ctx : Context) (h : Hierarchy) (id : NodeId) : Step → Option (Option NodeId × Hierarchy)
  | .this => some (some id, h)
  | .parent => (parent h id).map (·, h)
  | .root => some (some h.rootNode.1, h.rootNode.2)
  | .layer => (layer h id).map (·, h)
  | .ancestor params => do
    let around ← ancestors h id
    let found ← around.findM? fun a => params.allM (passes ctx h a)
    return (found, h)
  | .child name => child ctx h id name.text
  | .sibling name => do
    match ← parent h id with
    | none => return (none, h)
    | some parent =>
      let found ← child ctx h parent name.text
      return (found.1.filter (· ≠ id), found.2)
  | .handle name => do
    match ← handle ctx.names name.text with
    | some handle => ofDesc ctx h handle.desc
    | none => child ctx h id name.text

def selectSteps (ctx : Context) (h : Hierarchy) (id : NodeId) :
    List Fragment → Option (List NodeId × Hierarchy)
  | [] => some ([], h)
  | f :: rest =>
    (step ctx h id f.step).bind fun found =>
      match found.1 with
      | some next => (selectSteps ctx found.2 next rest).map fun more => (next :: more.1, more.2)
      | none => some ([], found.2)

/-! ## Paths -/

def resolveFrom (ctx : Context) (h : Hierarchy) (id : DescId) (fragments : List Fragment) :
    Option (List (List DescId) × Hierarchy) :=
  if fragments.isEmpty then some ([], h)
  else do
    let found ← ofDesc ctx h id
    match found.1 with
    | none => return ([], found.2)
    | some node =>
      let selected ← selectSteps ctx found.2 node fragments
      let items ← selected.1.mapM fun n => (selected.2.live? n).map (·.descs)
      return (items, selected.2)

def resolveNames (ctx : Context) (h : Hierarchy) (id : DescId) :
    Nat → List Fragment → Option (List (List DescId) × Hierarchy)
  | _, [] => some ([], h)
  | 0, fragments => resolveFrom ctx h id fragments
  | bound + 1, f :: rest =>
    match f.step with
    | .child name =>
      match ctx.names.child? id name.text with
      | some next => (resolveNames ctx h next bound rest).map fun more => ([next] :: more.1, more.2)
      | none => some ([], h)
    | _ => some ([], h)

def resolve (ctx : Context) (h : Hierarchy) (id : DescId) (path : Path) :
    Option (Resolution × Hierarchy) := do
  let found ←
    match path.fragments with
    | [] => some ([], h)
    | f :: rest =>
      match f.step with
      | .root => (resolveNames ctx h Namespace.root rootedSteps rest).map fun more =>
        ([Namespace.root] :: more.1, more.2)
      | _ => resolveFrom ctx h id (f :: rest)
  return (⟨found.1, path.fragments.length⟩, found.2)

/-! ## Descs of nodes -/

section

variable {ctx : Context} {h : Hierarchy} {id : NodeId} {l : List View}

/-- All descs that are grouped are children of descs of the tree. -/
theorem live_slot (tree : IsTree ctx.names) {sources : List DescId} {name : String}
    {descs : List DescId} (hget : (groupChildren ctx.names sources).get? name = some descs) :
    ∀ id ∈ descs, ∃ d, ctx.names.live? id = some d := by
  have hentries : ∀ e ∈ (sources.filterMap ctx.names.live?).flatMap (·.children.entries),
      ∃ d, ctx.names.live? e.2 = some d := by
    intro e he
    obtain ⟨d, hd, he⟩ := List.mem_flatMap.1 he
    obtain ⟨source, -, hsource⟩ := List.mem_filterMap.1 hd
    have hdistinct := tree.distinct (live?_eq_some_iff.1 hsource).1
    obtain ⟨child, hchild, -⟩ := tree.live_child hsource (OrderedMap.get?_of_mem hdistinct he)
    exact ⟨child, hchild⟩
  unfold groupChildren at hget
  dsimp only at hget
  generalize (sources.filterMap ctx.names.live?).flatMap (·.children.entries) = entries at hentries hget
  refine List.foldlRecOn entries _ (motive := fun m : NameMap (List DescId) => ∀ {name : String} {descs : List DescId},
    m.get? name = some descs → ∀ id ∈ descs, ∃ d, ctx.names.live? id = some d) ?_ ?_ hget
  · intro name descs hget
    cases hget
  · intro m ih e he name descs hget id hid
    rw [OrderedMap.get?_alter] at hget
    split at hget
    · have hids : ∀ id ∈ (m.get? e.1).getD [], ∃ d, ctx.names.live? id = some d := by
        cases hm : m.get? e.1 with
        | none => exact List.forall_mem_nil _
        | some ids => exact ih hm
      cases hget
      split at hid
      · exact hids id hid
      · rcases List.mem_append.1 hid with hid | hid
        · exact hids id hid
        · cases List.mem_singleton.1 hid
          exact hentries e he
    · exact ih hget id hid

theorem live_of_handle? {n : Namespace} {name : String} {found : Handle}
    (h : n.handle? name = some found) : ∃ d, n.live? found.desc = some d := by
  obtain ⟨handles, -, hfound⟩ := Option.bind_eq_some_iff.1 h
  have hlive : (n.live? found.desc).isSome = true := by simpa using List.find?_some hfound
  exact Option.isSome_iff_exists.1 hlive

theorem live_descs (tree : IsTree ctx.names) (hc : Coherent ctx h) {n : Node}
    (hn : h.live? id = some n) : ∀ desc ∈ n.descs, ∃ d, ctx.names.live? desc = some d := by
  cases hp : n.parent? with
  | none =>
    have hdescs : n.descs = [Namespace.root] := congrArg View.descs ((hc.hung hn).root hp).2
    obtain ⟨r, hr, -⟩ := tree.live_root
    rw [hdescs]
    intro desc hdesc
    cases List.mem_singleton.1 hdesc
    exact ⟨r, hr⟩
  | some p =>
    obtain ⟨pn, -, hslot⟩ := hc.slot_of_parent hn hp
    exact live_slot tree hslot

/-- The frame type of a node is looked up when the node is made. -/
theorem frameType_lt {main : DescId} {sources : List DescId} {type : FrameTypeId}
    (hdetail : Hierarchy.detailOf ctx main sources = .frame (some type)) :
    type < ctx.schema.frameTypes.size := by
  unfold Hierarchy.detailOf at hdetail
  dsimp only at hdetail
  split at hdetail
  · cases hdetail
  · obtain ⟨complex, -, hfound⟩ := Option.bind_eq_some_iff.1 (Detail.frame.inj hdetail)
    exact (Array.findIdx?_eq_some_iff_getElem.1 hfound).1
  · cases hdetail
  · cases hdetail
  · cases hdetail

theorem frameType?_lt (hc : Coherent ctx h) {n : Node} (hn : h.live? id = some n)
    {type : FrameTypeId} (htype : n.frameType? = some type) : type < ctx.schema.frameTypes.size := by
  unfold Node.frameType? at htype
  split at htype
  · rename_i type? hdetail
    subst htype
    cases hp : n.parent? with
    | none =>
      have hroot : n.detail = .root := congrArg View.detail ((hc.hung hn).root hp).2
      rw [hroot] at hdetail
      cases hdetail
    | some p =>
      have hview : n.detail = Hierarchy.detailOf ctx n.main n.sources :=
        detail_of_viewOf? ((hc.hung hn).made hp).1
      exact frameType_lt (hview.symm.trans hdetail)
  · cases htype

/-! ## Nothing is missing -/

variable (hctx : Whole ctx)

include hctx

theorem child_eq (hc : Coherent ctx h) (hd : h.Denotes id l) (name : String) :
    child ctx h id name = some (h.child ctx id name) := by
  obtain ⟨n₀, -, hn₀, -, -⟩ := hd.exists_node
  obtain ⟨hc₁, -, hn⟩ := hc.expand hn₀
  obtain ⟨m, hm⟩ := children?_expanded ctx n₀
  unfold child Hierarchy.child expand
  rw [hn₀]
  simp only [Option.bind_eq_bind, Option.map_some, Option.bind_some]
  generalize n₀.expanded ctx = n at hn hm
  generalize h.expand ctx id = h₁ at hc₁ hn
  have hbranch : h₁.branch? id name = m.get? name := by
    rw [branch?, node?_of_live? hn, Option.bind_some, hm, Option.bind_some]
  rw [hbranch]
  cases hb : m.get? name with
  | none => rfl
  | some b =>
    obtain ⟨descs, hslot, hok⟩ := hc₁.slot_of_branch hn hm hb
    cases hok with
    | pending =>
      dsimp only
      rw [makeNode_eq hctx name (live_slot hctx.names.tree hslot) id, Option.bind_some]
      cases Hierarchy.makeNode ctx name descs id <;> rfl
    | built hlive hp hname hdescs =>
      dsimp only
      rw [hlive]
      rfl
    | missing hnone hread => rfl

theorem descend_eq (hc : Coherent ctx h) (hd : h.Denotes id l) (names : List String) :
    descend ctx h id names = some (h.descend ctx id names) := by
  induction names generalizing h id l with
  | nil => rfl
  | cons name rest ih =>
    obtain ⟨hc₁, -, hanswer⟩ := hc.child hd name
    rw [descend, child_eq hctx hc hd name, Option.bind_some]
    unfold Hierarchy.descend
    generalize h.child ctx id name = r at hc₁ hanswer
    obtain ⟨c, h₁⟩ := r
    generalize childViews? ctx l name = out at hanswer
    cases hanswer with
    | none => rfl
    | some hd₁ => exact ih hc₁ hd₁

theorem ofDesc_eq (hc : Coherent ctx h) {desc : DescId} {d : Desc}
    (hdesc : ctx.names.live? desc = some d) : ofDesc ctx h desc = some (h.ofDesc ctx desc) := by
  obtain ⟨path, hpath⟩ := hctx.names.tree.exists_path hdesc
  obtain ⟨names, hnames, -⟩ := Option.map_eq_some_iff.1 hpath
  have hroot := hc.rootNode
  unfold ofDesc Hierarchy.ofDesc
  rw [hnames]
  exact descend_eq hctx hroot.coherent hroot.answer names.reverse

omit hctx in
theorem parent_eq (hd : h.Denotes id l) : parent h id = some (h.parent? id) := by
  obtain ⟨n, -, hn, -, -⟩ := hd.exists_node
  rw [parent, hn, Hierarchy.parent?, node?_of_live? hn]
  rfl

omit hctx in
theorem ancestors_eq (hc : Coherent ctx h) (hd : h.Denotes id l) :
    ancestors h id = some (h.ancestors id) := by
  induction hd with
  | top hn hp =>
    rw [ancestors, Hierarchy.ancestors, parent_eq (.top hn hp), Hierarchy.parent?, node?_of_live? hn,
      Option.bind_some, Option.bind_some, hp]
  | under hn hp rest ih =>
    obtain ⟨hlt, -⟩ := (hc.hung hn).parent hp
    rw [ancestors, Hierarchy.ancestors, parent_eq (.under hn hp rest), Hierarchy.parent?,
      node?_of_live? hn, Option.bind_some, Option.bind_some, hp]
    simp only [hlt, if_true, ih, Option.map_some]

omit hctx in
theorem isFrame_eq (hd : h.Denotes id l) : isFrame h id = some (h.isFrame id) := by
  obtain ⟨n, -, hn, -, -⟩ := hd.exists_node
  rw [isFrame, hn, Hierarchy.isFrame, node?_of_live? hn]
  rfl

omit hctx in
theorem layer_eq (hc : Coherent ctx h) (hd : h.Denotes id l) : layer h id = some (h.layer? id) := by
  have hframes : ∀ a ∈ id :: h.ancestors id,
      (isFrame h a).map (a, ·) = some (a, h.isFrame a) := by
    intro a ha
    have hlive : ∃ la, h.Denotes a la := by
      rcases List.mem_cons.1 ha with rfl | ha
      · exact ⟨l, hd⟩
      · exact (hc.ancestors hd).exists_denotes a ha
    obtain ⟨la, hla⟩ := hlive
    rw [isFrame_eq hla]
    rfl
  rw [layer, ancestors_eq hc hd]
  simp only [Option.bind_eq_bind, Option.bind_some, mapM_eq_some hframes, List.filter_map,
    List.map_map]
  exact congrArg (fun frames : List NodeId => some frames.getLast?) (List.map_id _)

omit hctx in
theorem frameType_eq (hc : Coherent ctx h) (hd : h.Denotes id l) :
    frameType ctx h id = some (h.frameType? ctx id) := by
  obtain ⟨n, -, hn, -, -⟩ := hd.exists_node
  rw [frameType, hn, Option.bind_some, entry_eq fun type htype => frameType?_lt hc hn htype,
    Hierarchy.frameType?, node?_of_live? hn]
  rfl

theorem passes_eq (hc : Coherent ctx h) (hd : h.Denotes id l) (p : Param) :
    passes ctx h id p = some (h.passes ctx id p) := by
  obtain ⟨n, -, hn, -, -⟩ := hd.exists_node
  unfold passes Hierarchy.passes
  cases p.filter? with
  | none => rfl
  | some filter =>
    cases filter with
    | name =>
      dsimp only
      rw [hn, node?_of_live? hn]
      rfl
    | type =>
      dsimp only
      rw [frameType_eq hc hd]
      rfl
    | ofType =>
      dsimp only
      rw [frameType_eq hc hd, Option.bind_some]
      cases hf : h.frameType? ctx id with
      | none => rfl
      | some f =>
        obtain ⟨type, -, hfound⟩ := Option.bind_eq_some_iff.1 hf
        exact isOfKind_eq hctx.schema (hctx.schema.frameTypes f (Array.mem_of_getElem? hfound)).2 _

theorem step_eq (hc : Coherent ctx h) (hd : h.Denotes id l) (s : Step) :
    step ctx h id s = some (h.step ctx id s) := by
  cases s with
  | this => rfl
  | parent => rw [step, parent_eq hd]; rfl
  | root => rfl
  | layer => rw [step, layer_eq hc hd]; rfl
  | ancestor params =>
    have hpass : ∀ a ∈ h.ancestors id, params.allM (passes ctx h a) =
        some (params.all (h.passes ctx a)) := by
      intro a ha
      obtain ⟨la, hla⟩ := (hc.ancestors hd).exists_denotes a ha
      exact allM_eq_some fun p _ => passes_eq hctx hc hla p
    rw [step, ancestors_eq hc hd]
    simp only [Option.bind_eq_bind, Option.bind_some, findM?_eq_some hpass]
    rfl
  | child name => exact child_eq hctx hc hd name.text
  | sibling name =>
    simp only [step, Hierarchy.step, parent_eq hd, Option.bind_eq_bind, Option.bind_some]
    cases hd with
    | top hn hp =>
      rw [Hierarchy.parent?, node?_of_live? hn, Option.bind_some, hp]
      rfl
    | under hn hp rest =>
      rw [Hierarchy.parent?, node?_of_live? hn, Option.bind_some, hp]
      simp only [child_eq hctx hc rest, Option.bind_some]
      rfl
  | handle name =>
    simp only [step, Hierarchy.step, handle_eq hctx, Option.bind_eq_bind, Option.bind_some]
    cases hhandle : ctx.names.handle? name.text with
    | none => exact child_eq hctx hc hd name.text
    | some found =>
      obtain ⟨d, hlive⟩ := live_of_handle? hhandle
      exact ofDesc_eq hctx hc hlive

theorem selectSteps_eq (hc : Coherent ctx h) (hd : h.Denotes id l) (fragments : List Fragment) :
    selectSteps ctx h id fragments = some (h.selectSteps ctx id fragments) := by
  induction fragments generalizing h id l with
  | nil => rfl
  | cons f rest ih =>
    obtain ⟨hc₁, -, hanswer⟩ := hc.step hd f.step
    rw [selectSteps, step_eq hctx hc hd f.step, Option.bind_some]
    unfold Hierarchy.selectSteps
    generalize h.step ctx id f.step = r at hc₁ hanswer
    obtain ⟨c, h₁⟩ := r
    generalize stepViews? ctx l f.step = out at hanswer
    cases hanswer with
    | none => rfl
    | some hd₁ =>
      dsimp only
      rw [ih hc₁ hd₁]
      rfl

/-! ### Paths -/

variable {desc : DescId}

theorem resolveFrom_eq (hc : Coherent ctx h) {d : Desc} (hdesc : ctx.names.live? desc = some d)
    (fragments : List Fragment) :
    resolveFrom ctx h desc fragments = some (h.resolveFrom ctx desc fragments) := by
  unfold resolveFrom Hierarchy.resolveFrom
  split
  · rfl
  · obtain ⟨hc₁, -, hanswer⟩ := hc.ofDesc desc
    rw [ofDesc_eq hctx hc hdesc]
    simp only [Option.bind_eq_bind, Option.bind_some]
    generalize h.ofDesc ctx desc = r at hc₁ hanswer
    obtain ⟨c, h₁⟩ := r
    generalize viewsOfDesc? ctx desc = out at hanswer
    cases hanswer with
    | none => rfl
    | @some node lnode hd₁ =>
      have hselected := hc₁.selectSteps hd₁ fragments
      have hitems : ∀ n ∈ (h₁.selectSteps ctx node fragments).1,
          ((h₁.selectSteps ctx node fragments).2.live? n).map (·.descs) =
            some ((((h₁.selectSteps ctx node fragments).2.node? n).map (·.descs)).getD []) := by
        intro n hn
        obtain ⟨ln, hln⟩ := hselected.answer.exists_denotes n hn
        obtain ⟨x, -, hx, -, -⟩ := hln.exists_node
        rw [hx, node?_of_live? hx]
        rfl
      dsimp only
      rw [selectSteps_eq hctx hc₁ hd₁]
      simp only [Option.bind_some, mapM_eq_some hitems]
      rfl

theorem resolveNames_eq (hc : Coherent ctx h) (bound : Nat) {d : Desc}
    (hdesc : ctx.names.live? desc = some d) (fragments : List Fragment) :
    resolveNames ctx h desc bound fragments = some (h.resolveNames ctx desc bound fragments) := by
  induction fragments generalizing desc d bound with
  | nil => simp only [resolveNames, Hierarchy.resolveNames]
  | cons f rest ih =>
    cases bound with
    | zero =>
      simp only [resolveNames, Hierarchy.resolveNames]
      exact resolveFrom_eq hctx hc hdesc _
    | succ bound =>
      simp only [resolveNames, Hierarchy.resolveNames]
      cases f.step with
      | child name =>
        dsimp only
        cases hchild : ctx.names.child? desc name.text with
        | none => rfl
        | some next =>
          obtain ⟨pd, hpd, hget⟩ := Option.bind_eq_some_iff.1 hchild
          obtain ⟨c, hnext, -⟩ := hctx.names.tree.live_child hpd hget
          dsimp only
          rw [ih bound hnext]
          rfl
      | _ => rfl

theorem resolve_eq (hc : Coherent ctx h) {d : Desc} (hdesc : ctx.names.live? desc = some d)
    (path : Path) : resolve ctx h desc path = some (h.resolve ctx desc path) := by
  obtain ⟨r, hr, -⟩ := hctx.names.tree.live_root
  unfold resolve Hierarchy.resolve
  cases path.fragments with
  | nil => rfl
  | cons f rest =>
    dsimp only
    cases f.step with
    | root =>
      dsimp only
      rw [resolveNames_eq hctx hc rootedSteps hr]
      rfl
    | _ =>
      dsimp only
      rw [resolveFrom_eq hctx hc hdesc]
      rfl

omit hctx

/-! ### What is found -/

theorem length_selectSteps_le (ctx : Context) (h : Hierarchy) (id : NodeId)
    (fragments : List Fragment) : (h.selectSteps ctx id fragments).1.length ≤ fragments.length := by
  induction fragments generalizing h id with
  | nil => exact Nat.le_refl 0
  | cons f rest ih =>
    unfold Hierarchy.selectSteps
    split
    · exact Nat.succ_le_succ (ih _ _)
    · exact Nat.zero_le _

theorem length_resolveFrom_le (ctx : Context) (h : Hierarchy) (id : DescId)
    (fragments : List Fragment) : (h.resolveFrom ctx id fragments).1.length ≤ fragments.length := by
  unfold Hierarchy.resolveFrom
  split
  · exact Nat.zero_le _
  · split
    · exact Nat.zero_le _
    · rw [List.length_map]
      exact length_selectSteps_le ctx _ _ fragments

theorem length_resolveNames_le (ctx : Context) (h : Hierarchy) (id : DescId) (bound : Nat)
    (fragments : List Fragment) :
    (h.resolveNames ctx id bound fragments).1.length ≤ fragments.length := by
  induction fragments generalizing id bound with
  | nil => simp only [Hierarchy.resolveNames, List.length_nil, Nat.le_refl]
  | cons f rest ih =>
    cases bound with
    | zero =>
      simp only [Hierarchy.resolveNames]
      exact length_resolveFrom_le ctx h id _
    | succ bound =>
      simp only [Hierarchy.resolveNames]
      split
      · split
        · exact Nat.succ_le_succ (ih _ _)
        · exact Nat.zero_le _
      · exact Nat.zero_le _

theorem length_items_le (ctx : Context) (h : Hierarchy) (id : DescId) (path : Path) :
    (h.resolve ctx id path).1.items.length ≤ path.fragments.length := by
  unfold Hierarchy.resolve
  cases path.fragments with
  | nil => exact Nat.le_refl 0
  | cons f rest =>
    dsimp only
    split
    · exact Nat.succ_le_succ (length_resolveNames_le ctx h _ _ rest)
    · exact length_resolveFrom_le ctx h id _

/-- A path that does not lead all the way has a step that leads nowhere. -/
theorem exists_fragment {path : Path} (hpath : path.isEmpty = false) {h : Hierarchy} {id : DescId}
    (hcomplete : (h.resolve ctx id path).1.isComplete = false) :
    ∃ f ∈ path.fragments, path.fragments[(h.resolve ctx id path).1.items.length]? = some f := by
  have hsteps : (h.resolve ctx id path).1.steps = path.fragments.length := rfl
  have hpos : 0 < path.fragments.length := by
    rw [Path.isEmpty, List.isEmpty_eq_false_iff] at hpath
    exact List.length_pos_iff.2 hpath
  have hne : (h.resolve ctx id path).1.items.length ≠ path.fragments.length := by
    intro heq
    simp [Resolution.isComplete, hsteps, heq, hpos] at hcomplete
  have hlt := Nat.lt_of_le_of_ne (length_items_le ctx h id path) hne
  exact ⟨_, List.getElem_mem hlt, List.getElem?_eq_getElem hlt⟩

section

variable (tree : IsTree ctx.names) (hc : Coherent ctx h) {desc : DescId}

include tree hc

theorem live_resolveFrom (fragments : List Fragment) :
    ∀ item ∈ (h.resolveFrom ctx desc fragments).1, ∀ x ∈ item, ∃ d, ctx.names.live? x = some d := by
  unfold Hierarchy.resolveFrom
  split
  · exact nofun
  · obtain ⟨hc₁, -, hanswer⟩ := hc.ofDesc desc
    generalize h.ofDesc ctx desc = r at hc₁ hanswer
    obtain ⟨c, h₁⟩ := r
    generalize viewsOfDesc? ctx desc = out at hanswer
    cases hanswer with
    | none => exact nofun
    | some hd₁ =>
      have hselected := hc₁.selectSteps hd₁ fragments
      intro item hitem
      obtain ⟨n, hn, rfl⟩ := List.mem_map.1 hitem
      obtain ⟨ln, hln⟩ := hselected.answer.exists_denotes n hn
      obtain ⟨x, -, hx, -, -⟩ := hln.exists_node
      rw [node?_of_live? hx]
      exact live_descs tree hselected.coherent hx

theorem live_resolveNames (bound : Nat) (fragments : List Fragment) :
    ∀ item ∈ (h.resolveNames ctx desc bound fragments).1, ∀ x ∈ item,
      ∃ d, ctx.names.live? x = some d := by
  induction fragments generalizing desc bound with
  | nil =>
    simp only [Hierarchy.resolveNames]
    exact nofun
  | cons f rest ih =>
    cases bound with
    | zero =>
      simp only [Hierarchy.resolveNames]
      exact live_resolveFrom tree hc _
    | succ bound =>
      simp only [Hierarchy.resolveNames]
      split
      · split
        · rename_i next hchild
          obtain ⟨pd, hpd, hget⟩ := Option.bind_eq_some_iff.1 hchild
          obtain ⟨c, hnext, -⟩ := tree.live_child hpd hget
          intro item hitem x hx
          rcases List.mem_cons.1 hitem with rfl | hitem
          · cases List.mem_singleton.1 hx
            exact ⟨c, hnext⟩
          · exact ih bound item hitem x hx
        · exact nofun
      · exact nofun

theorem live_items (path : Path) : ∀ item ∈ (h.resolve ctx desc path).1.items, ∀ x ∈ item,
    ∃ d, ctx.names.live? x = some d := by
  obtain ⟨r, hr, -⟩ := tree.live_root
  unfold Hierarchy.resolve
  cases path.fragments with
  | nil => exact nofun
  | cons f rest =>
    dsimp only
    split
    · intro item hitem x hx
      rcases List.mem_cons.1 hitem with rfl | hitem
      · cases List.mem_singleton.1 hx
        exact ⟨r, hr⟩
      · exact live_resolveNames tree hc rootedSteps rest item hitem x hx
    · exact live_resolveFrom tree hc _

theorem live_target {path : Path} {target : DescId}
    (htarget : (h.resolve ctx desc path).1.target? = some target) :
    ∃ d, ctx.names.live? target = some d := by
  unfold Resolution.target? at htarget
  split at htarget
  · obtain ⟨item, hitem, hhead⟩ := Option.bind_eq_some_iff.1 htarget
    exact live_items tree hc path item (List.mem_of_getLast? hitem) target (List.mem_of_head? hhead)
  · cases htarget

end

end

end Strict
end UILayout
