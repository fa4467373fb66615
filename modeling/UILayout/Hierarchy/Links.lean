import UILayout.Context

/-!
# UILayout.Hierarchy.Links

Links between descs. An element with a `template` attribute takes over what the desc at that path
has, and one with a `file` attribute what the desc of its own name in that file has. `Reach` follows
links from some descs as far as they lead, level by level, and meets each desc once.

* `unseenLinks_cons_le`: what a desc puts into the queue is put in once, so the search ends, also when
  links lead in circles.
-/

namespace UILayout
namespace Hierarchy

open Namespace

structure Links where
  targets : List DescId
  /-- The descs that were looked at on the way. -/
  read : List DescId
  /-- Does a `file` attribute lead nowhere? -/
  broken : Bool
  deriving Repr

def Links.none : Links := ⟨[], [], false⟩

def Links.append (a b : Links) : Links :=
  ⟨a.targets ++ b.targets, a.read ++ b.read, a.broken || b.broken⟩

/-- The descs that are looked at when names are followed down. -/
def trail (n : Namespace) (id : DescId) : List String → List DescId
  | [] => [id]
  | name :: rest =>
    match n.child? id name with
    | some child => id :: trail n child rest
    | Option.none => [id]

/-- The link of a `template` attribute. A file is no template. -/
def templateLink (n : Namespace) (value : String) : Links :=
  let names := Text.pathNames value
  let target? := (n.follow? root names).filter fun id => decide (n.kind? id ≠ some .file)
  ⟨target?.toList, trail n root names, false⟩

def fileLink (n : Namespace) (file name : String) : Links :=
  let target? := n.follow? root [file, name]
  ⟨target?.toList, trail n root [file, name], target?.isNone⟩

def siteLinks (ctx : Context) (d : Desc) (site : Site) : Links :=
  match ctx.element? site.element with
  | Option.none => .none
  | some e =>
    Links.append
      (((e.value? "template").map (templateLink ctx.names)).getD .none)
      (((e.value? "file").map fun file => fileLink ctx.names file d.name).getD .none)

def descLinks (ctx : Context) (d : Desc) : Links :=
  d.sites.foldr (fun site rest => (siteLinks ctx d site).append rest) .none

structure Reach where
  /-- The descs that are met, in the order in which they are met. -/
  sources : List DescId
  read : List DescId
  /-- Does a `file` attribute of a desc that the search starts from lead nowhere? -/
  broken : Bool
  deriving Repr

namespace Reach

def none : Reach := ⟨[], [], false⟩

/-- Puts the links of a desc before what is met after it. `own` tells that the search starts from
the desc. -/
def cons (id : DescId) (own : Bool) (links : Links) (r : Reach) : Reach :=
  ⟨id :: r.sources, id :: (links.read ++ r.read), own && links.broken || r.broken⟩

/-- How many links lead out of a desc. -/
def linkCount (ctx : Context) (id : DescId) : Nat :=
  ((ctx.names.live? id).map fun d => (descLinks ctx d).targets.length).getD 0

def linkTotal (ctx : Context) : List DescId → Nat
  | [] => 0
  | id :: rest => linkCount ctx id + linkTotal ctx rest

/-- How many links lead out of all descs that have not been seen. -/
def unseenLinks (ctx : Context) (seen : List DescId) : Nat :=
  linkTotal ctx ((List.range ctx.names.descs.size).filter (· ∉ seen))

/-- The links of a desc that is seen now are no longer among those to come. -/
theorem unseenLinks_cons_le (ctx : Context) {seen : List DescId} {id : DescId}
    (hid : id < ctx.names.descs.size) (hs : id ∉ seen) :
    unseenLinks ctx (id :: seen) + linkCount ctx id ≤ unseenLinks ctx seen := by
  have hmem : id ∈ List.range ctx.names.descs.size := List.mem_range.2 hid
  unfold unseenLinks
  generalize List.range ctx.names.descs.size = ids at hmem
  have hle : ∀ ids : List DescId, linkTotal ctx (ids.filter (· ∉ id :: seen)) ≤
      linkTotal ctx (ids.filter (· ∉ seen)) := by
    intro ids
    induction ids with
    | nil => simp
    | cons i rest ih =>
      by_cases hi : i ∈ seen
      · simpa [hi] using ih
      · by_cases heq : i = id
        · simp [heq, hs, linkTotal] at ih ⊢
          omega
        · simpa [hi, heq, linkTotal] using ih
  induction ids with
  | nil => simp at hmem
  | cons i rest ih =>
    by_cases heq : i = id
    · have := hle rest
      simp [heq, hs, linkTotal] at this ⊢
      omega
    · have hrest : id ∈ rest := (List.mem_cons.1 hmem).resolve_left (Ne.symm heq)
      have := ih hrest
      by_cases hi : i ∈ seen
      · simpa [hi, heq] using this
      · simp [hi, heq, linkTotal] at this ⊢
        omega

theorem lt_size_of_live? {n : Namespace} {id : Nat} {d : Desc} (h : n.live? id = some d) :
    id < n.descs.size := by
  unfold Namespace.live? at h
  rcases hd : n.descs[id]? with _ | d'
  · simp [hd] at h
  · exact (Array.getElem?_eq_some_iff.1 hd).1

/-- Follows links from a queue of descs, passing over what has been seen. -/
def fromQueue (ctx : Context) (seen : List DescId) : List (DescId × Bool) → Reach
  | [] => .none
  | (id, own) :: rest =>
    if _hs : id ∈ seen then fromQueue ctx seen rest
    else
      match _hd : ctx.names.live? id with
      | Option.none =>
        let r := fromQueue ctx seen rest
        { r with read := id :: r.read }
      | some d =>
        let links := descLinks ctx d
        .cons id own links (fromQueue ctx (id :: seen) (rest ++ links.targets.map (·, false)))
  termination_by queue => unseenLinks ctx seen + queue.length
  decreasing_by
    · simp
    · simp
    · have hle := unseenLinks_cons_le ctx (lt_size_of_live? _hd) _hs
      simp [linkCount, _hd] at hle ⊢
      omega

def ofDescs (ctx : Context) (descs : List DescId) : Reach := fromQueue ctx [] (descs.map (·, true))

end Reach

end Hierarchy
end UILayout
