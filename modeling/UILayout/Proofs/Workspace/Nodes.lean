import UILayout.Proofs.Check.Template
import UILayout.Proofs.Hierarchy.Defaults

/-!
# UILayout.Proofs.Workspace.Nodes

What the nodes of the hierarchy are, after every session.

* `sources_after`: the sources of descs are the closure of their links.
* `node_after`: the node of a desc is its own, and when there is none.
* `default_after`: the default state of a state group, and when it is the desc's own.
* `inherited_default_wins`: a state group whose default state is not its own.
-/

namespace UILayout
namespace Workspace

open Hierarchy Namespace Schema

/-! ## Sources -/

/-- The search for the sources of some descs comes to an end, also when links lead in circles. It finds
the descs that their links lead to, each of them once, the descs themselves in front, and it is broken
where one of these has a `file` attribute that leads nowhere. -/
theorem sources_after (s : Schema) (commands : List Command) {descs : List DescId}
    (hnodup : descs.Nodup)
    (hlive : ∀ id ∈ descs, ∃ d, (after s commands).context.names.live? id = some d) :
    let ctx := (after s commands).context
    let found := Reach.ofDescs ctx descs
    Relation.ReflTransGen (fun a b => Reach.turn ctx a = some b) ([], descs.map (·, true))
        (found.sources.reverse, []) ∧
      found.sources.Nodup ∧ descs <+: found.sources ∧
      (∀ id, id ∈ found.sources ↔ (∃ d, ctx.names.live? id = some d) ∧
        ∃ start ∈ descs, Relation.ReflTransGen (LinksTo ctx) start id) ∧
      (found.broken = true ↔ ∃ id ∈ descs, LinksNowhere ctx id) := by
  intro ctx found
  have tree : IsTree ctx.names := (valid_after s commands).settled.tree
  refine ⟨Reach.turns_ofDescs ctx descs, Reach.nodup_sources ctx descs,
    Reach.prefix_sources hlive hnodup, fun id => ?_, Reach.broken_iff hlive hnodup⟩
  have hclosure : id ∈ found.sources ↔ _ := Reach.mem_sources_iff hlive tree
  rw [← hclosure]
  exact (and_iff_right_of_imp Reach.live_of_mem_sources).symm

/-- Two frames that are each other's template. -/
def circle : List Command :=
  [.setFile "A" "<Desc><Frame name=\"F\" template=\"B/G\"/></Desc>".toList,
    .setFile "B" "<Desc><Frame name=\"G\" template=\"A/F\"/></Desc>".toList]

theorem sources_after_circle :
    let ctx := (after Check.framesOnly circle).context
    (([2] : List DescId).Nodup ∧ ∀ id ∈ [2], ∃ d, ctx.names.live? id = some d) ∧
      Relation.ReflTransGen (fun a b => Reach.turn ctx a = some b) ([], [(2, true)]) ([4, 2], []) ∧
      ∀ id, id ∈ [2, 4] ↔ (∃ d, ctx.names.live? id = some d) ∧
        ∃ start ∈ [2], Relation.ReflTransGen (LinksTo ctx) start id := by
  intro ctx
  obtain ⟨hsome, hsources⟩ : (ctx.names.live? 2).isSome = true ∧
      (Reach.ofDescs ctx [2]).sources = [2, 4] := by decide +kernel
  have hlive : ∀ id ∈ [2], ∃ d, ctx.names.live? id = some d := by
    intro id hid
    rw [List.mem_singleton.1 hid]
    exact Option.isSome_iff_exists.1 hsome
  obtain ⟨hturns, -, -, hclosure, -⟩ :=
    sources_after Check.framesOnly circle (List.nodup_singleton 2) hlive
  rw [hsources] at hturns
  refine ⟨⟨List.nodup_singleton 2, hlive⟩, hturns, fun id => ?_⟩
  rw [← hsources]
  exact hclosure id

/-! ## Nodes -/

/-- The node that a desc leads to is that of the desc, however much is merged into it. A desc leads to
none where something that is merged into a node on its path has a `file` attribute that leads nowhere. -/
theorem node_after (s : Schema) (commands : List Command) {id : DescId} {d : Desc}
    (hd : (after s commands).context.names.live? id = some d) :
    let w := after s commands
    let found := w.hierarchy.ofDesc w.context id
    ∃ path, w.context.names.path? id = some path ∧
      (∀ node, found.1 = some node → ∃ n, found.2.live? node = some n ∧
        n.IsOf w.context found.2 path id d) ∧
      (found.1 = none ↔ BrokenAlong w.context path) := by
  intro w found
  have hv := valid_after s commands
  obtain ⟨path, hpath⟩ := hv.settled.tree.exists_path hd
  exact ⟨path, hpath, hv.coherent.ofDesc_own hv.settled hd hpath⟩

/-- A frame with a title, and a frame that takes over all that it has, with a title of its own. -/
def titles : List Command :=
  [.setFile "T" "<Desc><Frame name=\"Dialog\"><Frame name=\"Title\"/></Frame></Desc>".toList,
    .setFile "A"
      "<Desc><Frame name=\"F\" template=\"T/Dialog\"><Frame name=\"Title\"/></Frame></Desc>".toList]

theorem node_after_titles :
    let w := after Check.framesOnly titles
    let found := w.hierarchy.ofDesc w.context 6
    ∃ (d : Desc) (n : Node), w.context.names.live? 6 = some d ∧ n.IsOf w.context found.2 ["A", "F", "Title"] 6 d ∧
      n.descs = [6, 3] := by
  intro w found
  obtain ⟨hnode, hsome, hwhere⟩ : (found.1.bind found.2.live?).map (·.descs) = some [6, 3] ∧
      (w.context.names.live? 6).isSome = true ∧
      w.context.names.path? 6 = some ["A", "F", "Title"] := by decide +kernel
  obtain ⟨n, hn, hdescs⟩ := Option.map_eq_some_iff.1 hnode
  obtain ⟨node, hfound, hn⟩ := Option.bind_eq_some_iff.1 hn
  obtain ⟨d, hd⟩ := Option.isSome_iff_exists.1 hsome
  obtain ⟨path, hpath, hown, -⟩ := node_after Check.framesOnly titles hd
  rw [hwhere] at hpath
  cases hpath
  obtain ⟨n', hn', hisOf⟩ := hown node hfound
  rw [hn] at hn'
  cases hn'
  exact ⟨d, n, hd, hisOf, hdescs⟩

/-! ## Default states -/

/-- A state group that gives a default state has one of its own for its default state. -/
def OwnDefaultWins (ctx : Context) (n : Node) : Prop :=
  ∀ default? states, n.detail = .stateGroup default? states →
    (∃ value, GivesDefault ctx n.main value) →
      ∃ value, default? = some value ∧ GivesDefault ctx n.main value

/-- The default state of a state group is the last one that its inherited sources give, and only when
they give none, the last one that its desc gives. So one of its own counts when it gives none or when
the last one that is inherited, if any, is the same as one of its own. -/
theorem default_after (s : Schema) (commands : List Command) {node : NodeId} {n : Node}
    {default? : Option String} {states : NameMap (List ElementRef)}
    (hn : (after s commands).hierarchy.live? node = some n)
    (hdetail : n.detail = .stateGroup default? states) :
    let ctx := (after s commands).context
    ∃ inherited, n.sources = n.main :: inherited ∧ n.main ∉ inherited ∧
      default? = (defaults ctx inherited).getLast?.or (defaults ctx [n.main]).getLast? ∧
      (OwnDefaultWins ctx n ↔ (∃ value, GivesDefault ctx n.main value) →
        ∀ value, (defaults ctx inherited).getLast? = some value → GivesDefault ctx n.main value) := by
  intro ctx
  have hv := valid_after s commands
  obtain ⟨inherited, hsources, hnew, hdefault⟩ :=
    hv.coherent.default_of_stateGroup hv.settled.tree hn hdetail
  refine ⟨inherited, hsources, hnew, hdefault, ?_⟩
  constructor
  · intro hwins hown
    rw [← own_iff_inherited hown, ← hdefault]
    exact hwins default? states hdetail hown
  · intro hwins default?' states' hdetail' hown
    rw [hdetail] at hdetail'
    cases hdetail'
    rw [hdefault, own_iff_inherited hown]
    exact hwins hown

/-- A schema with state groups in frames, which have default states. -/
def groupsOnly : Schema :=
  { Check.framesOnly with
    complexTypes := #[{ Check.framed with
      slots := ⟨[("Frame", 1), ("StateGroup", 2), ("DefaultState", 3)]⟩ }]
    slots := Check.framesOnly.slots ++ #[⟨"StateGroup", .stateGroup, 0, .empty, none, none⟩,
      ⟨"DefaultState", .stateGroupDefaultState, 0, .empty, none, none⟩] }

/-- A state group in a frame with a template that has a state group of the same name, which says
something. The node of the first one is made. -/
def groups (inherited : String) : List Command :=
  [.setFile "T" ("<Desc><Frame name=\"D\"><StateGroup name=\"M\">" ++ inherited ++
      "</StateGroup></Frame></Desc>").toList,
    .setFile "A" ("<Desc><Frame name=\"F\" template=\"T/D\"><StateGroup name=\"M\">" ++
      "<DefaultState val=\"Own\"/></StateGroup></Frame></Desc>").toList,
    .ask (.walk [.desc 6])]

theorem exists_group {inherited default : String}
    (h : ((after groupsOnly (groups inherited)).hierarchy.live? 3).map
      (fun n => (n.main, n.sources, n.detail.default?)) = some (6, [6, 3], some (some default))) :
    ∃ n states, (after groupsOnly (groups inherited)).hierarchy.live? 3 = some n ∧ n.main = 6 ∧
      n.sources = [6, 3] ∧ n.detail = .stateGroup (some default) states := by
  obtain ⟨n, hn, heq⟩ := Option.map_eq_some_iff.1 h
  obtain ⟨hmain, hrest⟩ := Prod.mk.inj heq
  obtain ⟨hsources, hdefault⟩ := Prod.mk.inj hrest
  obtain ⟨states, hdetail⟩ := Detail.default?_eq_some_iff.1 hdefault
  exact ⟨n, states, hn, hmain, hsources, hdetail⟩

/-- When nothing is inherited, the own default state counts. -/
theorem default_after_own :
    let w := after groupsOnly (groups "")
    ∃ n states, w.hierarchy.live? 3 = some n ∧ n.detail = .stateGroup (some "Own") states ∧
      GivesDefault w.context n.main "Own" ∧ OwnDefaultWins w.context n := by
  intro w
  obtain ⟨hnode, hown, hnone⟩ : (w.hierarchy.live? 3).map
        (fun n => (n.main, n.sources, n.detail.default?)) = some (6, [6, 3], some (some "Own")) ∧
      defaults w.context [6] = ["Own"] ∧ defaults w.context [3] = [] := by decide +kernel
  obtain ⟨n, states, hn, hmain, hsources, hdetail⟩ := exists_group hnode
  obtain ⟨inherited, heq, -, -, hwins⟩ := default_after groupsOnly (groups "") hn hdetail
  rw [hsources, hmain] at heq
  cases heq
  refine ⟨n, states, hn, hdetail, ?_, hwins.2 fun _ => ?_⟩
  · rw [hmain, ← mem_defaults_singleton, hown]
    exact List.mem_singleton_self _
  · rw [hnone]
    exact nofun

/-- An inherited default state counts in place of the own one. -/
theorem inherited_default_wins :
    let w := after groupsOnly (groups "<DefaultState val=\"Base\"/>")
    ∃ n states, w.hierarchy.live? 3 = some n ∧ n.detail = .stateGroup (some "Base") states ∧
      (∀ value, GivesDefault w.context n.main value ↔ value = "Own") ∧
      ¬ OwnDefaultWins w.context n := by
  intro w
  obtain ⟨hnode, hown⟩ : (w.hierarchy.live? 3).map
        (fun n => (n.main, n.sources, n.detail.default?)) = some (6, [6, 3], some (some "Base")) ∧
      defaults w.context [6] = ["Own"] := by decide +kernel
  obtain ⟨n, states, hn, hmain, -, hdetail⟩ := exists_group hnode
  have hgives : ∀ value, GivesDefault w.context n.main value ↔ value = "Own" := by
    intro value
    rw [hmain, ← mem_defaults_singleton, hown, List.mem_singleton]
  refine ⟨n, states, hn, hdetail, hgives, fun hwins => ?_⟩
  obtain ⟨value, hvalue, hgiven⟩ := hwins _ _ hdetail ⟨"Own", (hgives _).2 rfl⟩
  rw [(hgives value).1 hgiven] at hvalue
  exact absurd hvalue (by decide)

end Workspace
end UILayout
