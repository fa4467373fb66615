import Mathlib.Logic.Relation
import UILayout.Proofs.Hierarchy.Reach

/-!
# UILayout.Proofs.Hierarchy.Closure

The sources of some descs are what their links lead to: the descs themselves, the descs that these
link to, and so on. Each of them is met once, so that the search empties its queue also when links lead
in circles.

* `mem_targets_descLinks`, `broken_descLinks`: the links of a desc, read from its declarations.
* `Reach.turns_ofDescs`: the search comes to an end.
* `Reach.mem_sources_iff`: the sources are the closure of the links.
* `Reach.prefix_sources`, `Reach.broken_iff`: what the search starts from comes first, and only its
  `file` attributes count.
-/

namespace UILayout
namespace Hierarchy

open Markup Namespace

/-! ## Links, read from the declarations -/

/-- A declaration of a desc has an attribute with a value. -/
def Carries (ctx : Context) (d : Desc) (name value : String) : Prop :=
  ∃ site ∈ d.sites, ∃ e, ctx.element? site.element = some e ∧ e.value? name = some value

/-- A desc links to another one. -/
inductive LinksTo (ctx : Context) (id target : DescId) : Prop where
  /-- The names of a template lead there, and not to a file. -/
  | template {d : Desc} {value : String} (hd : ctx.names.live? id = some d)
      (hv : Carries ctx d "template" value)
      (ht : ctx.names.follow? Namespace.root (Text.pathNames value) = some target)
      (hk : ctx.names.kind? target ≠ some .file)
  /-- The other desc has the same name, in the file that is named. -/
  | file {d : Desc} {file : String} (hd : ctx.names.live? id = some d)
      (hv : Carries ctx d "file" file)
      (ht : ctx.names.follow? Namespace.root [file, d.name] = some target)

/-- A `file` attribute of a desc leads nowhere: the file is not there, or has no desc of that name. -/
def LinksNowhere (ctx : Context) (id : DescId) : Prop :=
  ∃ d file, ctx.names.live? id = some d ∧ Carries ctx d "file" file ∧
    ctx.names.follow? Namespace.root [file, d.name] = none

section

variable {ctx : Context} {d : Desc} {site : Site} {id target : DescId}

theorem mem_targets_siteLinks : target ∈ (siteLinks ctx d site).targets ↔
    ∃ e, ctx.element? site.element = some e ∧
      ((∃ value, e.value? "template" = some value ∧
          target ∈ (templateLink ctx.names value).targets) ∨
        ∃ file, e.value? "file" = some file ∧
          ctx.names.follow? Namespace.root [file, d.name] = some target) := by
  unfold siteLinks
  cases ctx.element? site.element with
  | none => simp [Links.none]
  | some e =>
    dsimp only
    cases ht : e.value? "template" <;> cases hf : e.value? "file" <;>
      simp [ht, hf, Links.append, Links.none, fileLink]

theorem broken_siteLinks : (siteLinks ctx d site).broken = true ↔
    ∃ e, ctx.element? site.element = some e ∧ ∃ file, e.value? "file" = some file ∧
      ctx.names.follow? Namespace.root [file, d.name] = none := by
  unfold siteLinks
  cases ctx.element? site.element with
  | none => simp [Links.none]
  | some e =>
    dsimp only
    cases ht : e.value? "template" <;> cases hf : e.value? "file" <;>
      simp [hf, Links.append, Links.none, templateLink, fileLink]

theorem mem_targets_descLinks : target ∈ (descLinks ctx d).targets ↔
    (∃ value, Carries ctx d "template" value ∧
        ctx.names.follow? Namespace.root (Text.pathNames value) = some target ∧
        ctx.names.kind? target ≠ some .file) ∨
      ∃ file, Carries ctx d "file" file ∧
        ctx.names.follow? Namespace.root [file, d.name] = some target := by
  rw [targets_descLinks, List.mem_flatMap]
  simp only [mem_targets_siteLinks, mem_targets_templateLink, Carries]
  constructor
  · rintro ⟨site, hsite, e, he, ⟨value, hv, ht⟩ | ⟨file, hv, ht⟩⟩
    · exact .inl ⟨value, ⟨site, hsite, e, he, hv⟩, ht⟩
    · exact .inr ⟨file, ⟨site, hsite, e, he, hv⟩, ht⟩
  · rintro (⟨value, ⟨site, hsite, e, he, hv⟩, ht⟩ | ⟨file, ⟨site, hsite, e, he, hv⟩, ht⟩)
    · exact ⟨site, hsite, e, he, .inl ⟨value, hv, ht⟩⟩
    · exact ⟨site, hsite, e, he, .inr ⟨file, hv, ht⟩⟩

theorem broken_descLinks : (descLinks ctx d).broken = true ↔
    ∃ file, Carries ctx d "file" file ∧
      ctx.names.follow? Namespace.root [file, d.name] = none := by
  have hsites : (descLinks ctx d).broken = d.sites.any fun site => (siteLinks ctx d site).broken := by
    unfold descLinks
    generalize d.sites = sites
    induction sites with
    | nil => rfl
    | cons site rest ih =>
      rw [List.foldr_cons, List.any_cons, ← ih]
      rfl
  rw [hsites, List.any_eq_true]
  simp only [broken_siteLinks, Carries]
  constructor
  · rintro ⟨site, hsite, e, he, file, hv, ht⟩
    exact ⟨file, ⟨site, hsite, e, he, hv⟩, ht⟩
  · rintro ⟨file, ⟨site, hsite, e, he, hv⟩, ht⟩
    exact ⟨site, hsite, e, he, file, hv, ht⟩

theorem linksTo_iff (hd : ctx.names.live? id = some d) :
    LinksTo ctx id target ↔ target ∈ (descLinks ctx d).targets := by
  rw [mem_targets_descLinks]
  constructor
  · rintro (⟨hd', hv, ht, hk⟩ | ⟨hd', hv, ht⟩) <;> rw [hd] at hd' <;> cases hd'
    · exact .inl ⟨_, hv, ht, hk⟩
    · exact .inr ⟨_, hv, ht⟩
  · rintro (⟨value, hv, ht, hk⟩ | ⟨file, hv, ht⟩)
    · exact .template hd hv ht hk
    · exact .file hd hv ht

theorem linksNowhere_iff (hd : ctx.names.live? id = some d) :
    LinksNowhere ctx id ↔ (descLinks ctx d).broken = true := by
  rw [broken_descLinks]
  constructor
  · rintro ⟨d', file, hd', hv, ht⟩
    rw [hd] at hd'
    cases hd'
    exact ⟨file, hv, ht⟩
  · rintro ⟨file, hv, ht⟩
    exact ⟨d, file, hd, hv, ht⟩

/-- Links lead to descs of the tree. -/
theorem LinksTo.live (tree : IsTree ctx.names) (h : LinksTo ctx id target) :
    ∃ t, ctx.names.live? target = some t := by
  have hroot := tree.live_root.imp fun _ hd => hd.1
  cases h with
  | template _ _ ht _ => exact live_of_follow? tree hroot ht
  | file _ _ ht => exact live_of_follow? tree hroot ht

end

/-! ## The search -/

namespace Reach

/-- Where a search stands: the descs that have been met, the last one first, and those that wait. -/
abbrev Stand := List DescId × List (DescId × Bool)

/-- One turn of the search takes the first desc off the queue; there is none when the queue is empty. -/
def turn (ctx : Context) : Stand → Option Stand
  | (_, []) => Option.none
  | (seen, (id, _) :: rest) =>
    if id ∈ seen then some (seen, rest)
    else
      match ctx.names.live? id with
      | Option.none => some (seen, rest)
      | some d => some (id :: seen, rest ++ (descLinks ctx d).targets.map (·, false))

section

variable {ctx : Context} {seen : List DescId} {queue : List (DescId × Bool)} {id : DescId}

/-- Turn after turn, the search comes to an empty queue, having met the sources. -/
theorem turns_fromQueue (ctx : Context) (seen : List DescId) (queue : List (DescId × Bool)) :
    Relation.ReflTransGen (fun a b => turn ctx a = some b) (seen, queue)
      ((fromQueue ctx seen queue).sources.reverse ++ seen, []) := by
  induction seen, queue using fromQueue.induct ctx with
  | case1 seen =>
    rw [fromQueue_nil]
    exact .refl
  | case2 seen id own rest hseen ih =>
    rw [fromQueue_seen hseen]
    exact .head (by simp [turn, hseen]) ih
  | case3 seen id own rest hseen hgone ih =>
    rw [fromQueue_gone hseen hgone]
    exact .head (by simp [turn, hseen, hgone]) ih
  | case4 seen id own rest hseen d hd links =>
    rename_i ih
    have hturn : turn ctx (seen, (id, own) :: rest) =
        some (id :: seen, rest ++ links.targets.map (·, false)) := by
      simp [turn, hseen, hd, links]
    rw [fromQueue_live hseen hd, cons, List.reverse_cons, List.append_assoc]
    exact .head hturn ih

theorem turns_ofDescs (ctx : Context) (descs : List DescId) :
    Relation.ReflTransGen (fun a b => turn ctx a = some b) ([], descs.map (·, true))
      ((ofDescs ctx descs).sources.reverse, []) := by
  have hturns := turns_fromQueue ctx [] (descs.map (·, true))
  rwa [List.append_nil] at hturns

/-- What has been met before is not met again, and what is met is part of the tree. -/
theorem fresh_fromQueue (ctx : Context) (seen : List DescId) (queue : List (DescId × Bool)) :
    (fromQueue ctx seen queue).sources.Nodup ∧ ∀ id ∈ (fromQueue ctx seen queue).sources,
      id ∉ seen ∧ ∃ d, ctx.names.live? id = some d := by
  induction seen, queue using fromQueue.induct ctx with
  | case1 seen =>
    rw [fromQueue_nil]
    exact ⟨List.nodup_nil, List.forall_mem_nil _⟩
  | case2 seen first own rest hseen ih =>
    rw [fromQueue_seen hseen]
    exact ih
  | case3 seen first own rest hseen hgone ih =>
    rw [fromQueue_gone hseen hgone]
    exact ih
  | case4 seen first own rest hseen d hd links =>
    rename_i ih
    rw [fromQueue_live hseen hd]
    obtain ⟨hnodup, hfresh⟩ := ih
    refine ⟨List.nodup_cons.2 ⟨fun hmem => (hfresh first hmem).1 List.mem_cons_self, hnodup⟩, ?_⟩
    intro id hid
    rcases List.mem_cons.1 hid with rfl | hid
    · exact ⟨hseen, d, hd⟩
    · obtain ⟨hnew, hlive⟩ := hfresh id hid
      exact ⟨fun hmem => hnew (List.mem_cons_of_mem _ hmem), hlive⟩

/-- Whatever is met is reached by links from something that waits. -/
theorem linked_fromQueue (h : id ∈ (fromQueue ctx seen queue).sources) :
    ∃ start ∈ queue, Relation.ReflTransGen (LinksTo ctx) start.1 id := by
  induction seen, queue using fromQueue.induct ctx with
  | case1 seen =>
    rw [fromQueue_nil] at h
    cases h
  | case2 seen first own rest hseen ih =>
    rw [fromQueue_seen hseen] at h
    obtain ⟨start, hstart, hlinks⟩ := ih h
    exact ⟨start, List.mem_cons_of_mem _ hstart, hlinks⟩
  | case3 seen first own rest hseen hgone ih =>
    rw [fromQueue_gone hseen hgone] at h
    obtain ⟨start, hstart, hlinks⟩ := ih h
    exact ⟨start, List.mem_cons_of_mem _ hstart, hlinks⟩
  | case4 seen first own rest hseen d hd links =>
    rename_i ih
    rw [fromQueue_live hseen hd] at h
    rcases List.mem_cons.1 h with rfl | h
    · exact ⟨_, List.mem_cons_self, .refl⟩
    · obtain ⟨start, hstart, hlinks⟩ := ih h
      rcases List.mem_append.1 hstart with hstart | hstart
      · exact ⟨start, List.mem_cons_of_mem _ hstart, hlinks⟩
      · obtain ⟨target, htarget, rfl⟩ := List.mem_map.1 hstart
        exact ⟨_, List.mem_cons_self, .head ((linksTo_iff hd).2 htarget) hlinks⟩

/-- The descs that the search starts from are met first, one after the other; what they link to waits
behind the rest of the queue. -/
theorem fromQueue_start {descs : List DescId} (hnodup : descs.Nodup)
    (hlive : ∀ id ∈ descs, ∃ d, ctx.names.live? id = some d) (hnew : ∀ id ∈ descs, id ∉ seen)
    (queue : List (DescId × Bool)) :
    ∃ seen' queue', (∀ e ∈ queue', e ∈ queue ∨ e.2 = false) ∧
      (fromQueue ctx seen (descs.map (·, true) ++ queue)).sources =
        descs ++ (fromQueue ctx seen' queue').sources ∧
      ((fromQueue ctx seen (descs.map (·, true) ++ queue)).broken = true ↔
        (∃ id ∈ descs, LinksNowhere ctx id) ∨ (fromQueue ctx seen' queue').broken = true) := by
  induction descs generalizing seen queue with
  | nil => exact ⟨seen, queue, fun e he => .inl he, rfl, by simp⟩
  | cons id rest ih =>
    obtain ⟨hid, hrest⟩ := List.nodup_cons.1 hnodup
    obtain ⟨d, hd⟩ := hlive id List.mem_cons_self
    have hseen : id ∉ seen := hnew id List.mem_cons_self
    have hnew' : ∀ other ∈ rest, other ∉ id :: seen := by
      intro other hother hmem
      rcases List.mem_cons.1 hmem with rfl | hmem
      · exact hid hother
      · exact hnew other (List.mem_cons_of_mem _ hother) hmem
    obtain ⟨seen', queue', hqueue, hsources, hbroken⟩ := ih hrest
      (fun other hother => hlive other (List.mem_cons_of_mem _ hother)) hnew'
      (queue ++ (descLinks ctx d).targets.map (·, false))
    have hturn : fromQueue ctx seen ((id :: rest).map (·, true) ++ queue) = .cons id true
        (descLinks ctx d) (fromQueue ctx (id :: seen)
          (rest.map (·, true) ++ (queue ++ (descLinks ctx d).targets.map (·, false)))) := by
      rw [List.map_cons, List.cons_append, fromQueue_live hseen hd, List.append_assoc]
    refine ⟨seen', queue', ?_, ?_, ?_⟩
    · intro e he
      rcases hqueue e he with hmem | hfalse
      · rcases List.mem_append.1 hmem with hmem | hmem
        · exact .inl hmem
        · obtain ⟨target, -, rfl⟩ := List.mem_map.1 hmem
          exact .inr rfl
      · exact .inr hfalse
    · rw [hturn, cons, hsources, List.cons_append]
    · simp only [hturn, cons, Bool.or_eq_true, Bool.true_and, hbroken, List.exists_mem_cons_iff,
        linksNowhere_iff hd, or_assoc]

/-- Only what the search starts from can be broken. -/
theorem broken_fromQueue (h : ∀ e ∈ queue, e.2 = false) :
    (fromQueue ctx seen queue).broken = false := by
  induction seen, queue using fromQueue.induct ctx with
  | case1 seen => rw [fromQueue_nil]; rfl
  | case2 seen first own rest hseen ih =>
    rw [fromQueue_seen hseen]
    exact ih fun e he => h e (List.mem_cons_of_mem _ he)
  | case3 seen first own rest hseen hgone ih =>
    rw [fromQueue_gone hseen hgone]
    exact ih fun e he => h e (List.mem_cons_of_mem _ he)
  | case4 seen first own rest hseen d hd links =>
    rename_i ih
    have hown : own = false := h (first, own) List.mem_cons_self
    rw [fromQueue_live hseen hd, cons, hown, Bool.false_and, Bool.false_or]
    refine ih fun e he => ?_
    rcases List.mem_append.1 he with he | he
    · exact h e (List.mem_cons_of_mem _ he)
    · obtain ⟨target, -, rfl⟩ := List.mem_map.1 he
      rfl

end

/-! ## The sources -/

section

variable {ctx : Context} {descs : List DescId} {id : DescId}

theorem nodup_sources (ctx : Context) (descs : List DescId) : (ofDescs ctx descs).sources.Nodup :=
  (fresh_fromQueue ctx [] _).1

theorem live_of_mem_sources (h : id ∈ (ofDescs ctx descs).sources) :
    ∃ d, ctx.names.live? id = some d :=
  ((fresh_fromQueue ctx [] _).2 id h).2

variable (hlive : ∀ id ∈ descs, ∃ d, ctx.names.live? id = some d)
include hlive

/-- The sources are the closure of what the search starts from under links. -/
theorem mem_sources_iff (tree : IsTree ctx.names) : id ∈ (ofDescs ctx descs).sources ↔
    ∃ start ∈ descs, Relation.ReflTransGen (LinksTo ctx) start id := by
  constructor
  · intro h
    obtain ⟨start, hstart, hlinks⟩ := linked_fromQueue h
    obtain ⟨start', hstart', rfl⟩ := List.mem_map.1 hstart
    exact ⟨start', hstart', hlinks⟩
  · rintro ⟨start, hstart, hlinks⟩
    induction hlinks with
    | refl =>
      obtain ⟨d, hd⟩ := hlive start hstart
      exact mem_sources_of_mem_queue List.not_mem_nil hd (List.mem_map.2 ⟨start, hstart, rfl⟩)
    | tail _ hlink ih =>
      obtain ⟨d, hd⟩ := live_of_mem_sources ih
      obtain ⟨t, ht⟩ := hlink.live tree
      exact (closed_fromQueue ih hd ((linksTo_iff hd).1 hlink) ht).resolve_left List.not_mem_nil

variable (hnodup : descs.Nodup)
include hnodup

theorem prefix_sources : descs <+: (ofDescs ctx descs).sources := by
  obtain ⟨seen, queue, -, hsources, -⟩ :=
    fromQueue_start hnodup hlive (fun _ _ => List.not_mem_nil) []
  rw [List.append_nil] at hsources
  exact ⟨_, hsources.symm⟩

theorem broken_iff :
    (ofDescs ctx descs).broken = true ↔ ∃ id ∈ descs, LinksNowhere ctx id := by
  obtain ⟨seen, queue, hqueue, -, hbroken⟩ :=
    fromQueue_start hnodup hlive (fun _ _ => List.not_mem_nil) []
  have hrest : (fromQueue ctx seen queue).broken = false :=
    broken_fromQueue fun e he => (hqueue e he).resolve_left List.not_mem_nil
  rw [List.append_nil, hrest] at hbroken
  exact hbroken.trans (or_iff_left Bool.false_ne_true)

end

end Reach

end Hierarchy
end UILayout
