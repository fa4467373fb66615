import Mathlib
import UILayout.Proofs.Schema.Refused
import UILayout.Schema.Run

/-!
# UILayout.Proofs.Schema.Ending

Loading ends. The loops that load a schema end on every definition, and each with one outcome only, the one
that is computed: the flags are set for just the types that are not free to be compiled; the count stops a
chain that does not end; and once that has been looked at, chains can be collected without a count.

* `flattens_eq`, `checks_eq`, `collects_eq`: the loops.
* `run_eq`: loading.
* `loading_ends`: cycles are refused, and nothing is refused as a cycle that is none.
-/

namespace UILayout
namespace Schema

open Relation

/-! ## Runs that end -/

namespace Run

variable {α β γ : Type}

@[simp] theorem bind_ok (a : α) (f : α → Run β) : (ended (.ok a) >>= f) = f a := by
  funext outcome
  refine propext ⟨?_, fun h => .inl ⟨a, rfl, h⟩⟩
  rintro (⟨a', ha, h⟩ | ⟨fault, hfault, -⟩)
  · cases ha
    exact h
  · cases hfault

@[simp] theorem bind_error (fault : Fault) (f : α → Run β) :
    (ended (.error fault) >>= f) = ended (.error fault) := by
  funext outcome
  refine propext ⟨?_, fun h => .inr ⟨fault, rfl, h⟩⟩
  rintro (⟨a, ha, -⟩ | ⟨fault', hfault, h⟩)
  · cases ha
  · cases hfault
    exact h

/-- Runs that end one after the other, when the second one ends after each result of the first. -/
theorem bind_ended {x : Except Fault α} {f : α → Run β} {g : α → Except Fault β}
    (h : ∀ a, x = .ok a → f a = ended (g a)) : (ended x >>= f) = ended (x >>= g) := by
  cases x with
  | ok a => rw [bind_ok, h a rfl]; rfl
  | error fault => rw [bind_error]; rfl

/-- As `bind_ended`, when the result of the first run is kept in another form. -/
theorem bind_ended_map {x : Except Fault α} {m : α → γ} {f : γ → Run β} {g : α → Except Fault β}
    (h : ∀ a, f (m a) = ended (g a)) : (ended (x.map m) >>= f) = ended (x >>= g) := by
  cases x with
  | ok a => exact (bind_ok (m a) f).trans (h a)
  | error fault => exact bind_error fault f

/-- Runs for one element after the other, when the state is kept in another form. -/
theorem foldlM_ended {f : γ → α → Run γ} {g : β → α → Except Fault β} {as : List α}
    (up : β → γ) (h : ∀ b, ∀ a ∈ as, f (up b) a = ended ((g b a).map up)) (b : β) :
    as.foldlM f (up b) = ended ((as.foldlM g b).map up) := by
  induction as generalizing b with
  | nil => rfl
  | cons a rest ih =>
    rw [List.foldlM_cons, List.foldlM_cons, h b a List.mem_cons_self]
    cases g b a with
    | error fault => exact bind_error fault _
    | ok mid =>
      have hrest := ih (fun b a ha => h b a (List.mem_cons_of_mem _ ha)) mid
      exact (bind_ok (up mid) _).trans hrest

end Run

/-! ## Complex types -/

section

variable {names : Names} {defs : List ComplexTypeDef} {st : Building} {id : ComplexTypeId}
  {d : ComplexTypeDef} {owner base : String} {rest : List String} {t : ComplexType}

theorem flattens_compiled (ht : st.flat.type? id = some t) :
    Run.of (Flattens names defs st id) = Run.ended (.ok st) := by
  funext outcome
  refine propext ⟨fun h => ?_, ?_⟩
  · cases h with
    | compiled => rfl
    | cycle hnew | badBase hnew | badOwn hnew | type hnew =>
      rw [ht] at hnew
      cases hnew
  · rintro rfl
    exact .compiled ht

theorem flattens_visiting (hnew : st.flat.type? id = none) (hd : defs[id]? = some d)
    (hflag : st.visiting[id]? = some true) :
    Run.of (Flattens names defs st id) = Run.ended (.error (.cycle .complexType d.name)) := by
  funext outcome
  refine propext ⟨fun h => ?_, ?_⟩
  · cases h with
    | compiled ht =>
      rw [hnew] at ht
      cases ht
    | cycle _ hd' =>
      rw [hd] at hd'
      cases hd'
      rfl
    | badBase _ _ hflag' | badOwn _ _ hflag' | type _ _ hflag' =>
      rw [hflag] at hflag'
      cases hflag'
  · rintro rfl
    exact .cycle hnew hd hflag

theorem flattens_new (hnew : st.flat.type? id = none) (hd : defs[id]? = some d)
    (hflag : st.visiting[id]? = some false) :
    Run.of (Flattens names defs st id) =
      Run.of (Inherits names defs ⟨st.flat, st.visiting.setIfInBounds id true⟩ d.name (.bare d)
        d.bases) >>= fun inherited =>
          Run.ended ((addOwn names d inherited.2 inherited.1.flat.slots).map (inherited.1.put id)) := by
  funext outcome
  refine propext ⟨fun h => ?_, ?_⟩
  · cases h with
    | compiled ht =>
      rw [hnew] at ht
      cases ht
    | cycle _ _ hflag' =>
      rw [hflag] at hflag'
      cases hflag'
    | badBase _ hd' _ hbases =>
      rw [hd] at hd'
      cases hd'
      exact .inr ⟨_, hbases, rfl⟩
    | badOwn _ hd' _ hbases hown | type _ hd' _ hbases hown =>
      rw [hd] at hd'
      cases hd'
      exact .inl ⟨_, hbases, (congrArg (Except.map (Building.put _ id)) hown).symm⟩
  · rintro (⟨⟨st', t⟩, hbases, houtcome⟩ | ⟨fault, hbases, rfl⟩)
    · cases hown : addOwn names d t st'.flat.slots with
      | error fault =>
        rw [hown] at houtcome
        cases houtcome
        exact .badOwn hnew hd hflag hbases hown
      | ok own =>
        rw [hown] at houtcome
        cases houtcome
        exact .type hnew hd hflag hbases hown
    · exact .badBase hnew hd hflag hbases

theorem inherits_nil : Run.of (Inherits names defs st owner t []) = Run.ended (.ok (st, t)) := by
  funext outcome
  refine propext ⟨fun h => ?_, ?_⟩
  · cases h
    rfl
  · rintro rfl
    exact .nil

theorem inherits_cons :
    Run.of (Inherits names defs st owner t (base :: rest)) =
      Run.ended (lookup .complexType names.complex base owner) >>= fun id =>
        Run.of (Flattens names defs st id) >>= fun st' =>
          Run.of (Inherits names defs st' owner (t.takeOver st'.flat id) rest) := by
  funext outcome
  refine propext ⟨fun h => ?_, ?_⟩
  · cases h with
    | unknown hbase => exact .inr ⟨_, hbase.symm, rfl⟩
    | bad hbase hflat => exact .inl ⟨_, hbase.symm, .inr ⟨_, hflat, rfl⟩⟩
    | cons hbase hflat hrest => exact .inl ⟨_, hbase.symm, .inl ⟨_, hflat, hrest⟩⟩
  · rintro (⟨id, hbase, ⟨st', hflat, hrest⟩ | ⟨fault, hflat, rfl⟩⟩ | ⟨fault, hbase, rfl⟩)
    · exact .cons hbase.symm hflat hrest
    · exact .bad hbase.symm hflat
    · exact .unknown hbase.symm

end

/-- The flags of `n` types are set for those that are not free to be compiled. -/
def Flags (n : Nat) (free : List ComplexTypeId) (visiting : Array Bool) : Prop :=
  ∀ id < n, visiting[id]? = some (decide (id ∉ free))

namespace Flags

variable {n : Nat} {free : List ComplexTypeId} {visiting : Array Bool} {id : ComplexTypeId}

theorem set (h : Flags n free visiting) (hfree : free.Nodup) (hid : id < n) :
    Flags n (free.erase id) (visiting.setIfInBounds id true) := by
  intro j hj
  obtain ⟨hlt, -⟩ := Array.getElem?_eq_some_iff.1 (h id hid)
  rw [Array.getElem?_setIfInBounds]
  split
  · rename_i heq
    subst heq
    simp [hfree.not_mem_erase]
  · rename_i hne
    rw [h j hj]
    simp [List.mem_erase_of_ne (Ne.symm hne)]

/-- A flag that is set and taken back leaves all flags as they were. -/
theorem reset (h : visiting[id]? = some false) :
    (visiting.setIfInBounds id true).setIfInBounds id false = visiting := by
  obtain ⟨hlt, hfalse⟩ := Array.getElem?_eq_some_iff.1 h
  apply Array.ext_getElem?
  intro j
  by_cases heq : id = j
  · subst heq
    simp [hlt, hfalse]
  · rw [Array.getElem?_setIfInBounds_ne heq, Array.getElem?_setIfInBounds_ne heq]

end Flags

/-- While the flags are those of `free`, compiling a type ends, and so does taking over bases; and the flags
are the same afterwards. -/
theorem flattens_eq (simple : List String) (defs : List ComplexTypeDef) :
    (∀ free flat id, free.Nodup → id < defs.length → ∀ visiting, Flags defs.length free visiting →
      Run.of (Flattens ⟨simple, defs.map (·.name)⟩ defs ⟨flat, visiting⟩ id) = Run.ended
        ((flatten ⟨simple, defs.map (·.name)⟩ defs free flat id).map (⟨·, visiting⟩))) ∧
    ∀ free flat owner t bases, free.Nodup → ∀ visiting, Flags defs.length free visiting →
      Run.of (Inherits ⟨simple, defs.map (·.name)⟩ defs ⟨flat, visiting⟩ owner t bases) = Run.ended
        ((inheritAll ⟨simple, defs.map (·.name)⟩ defs free flat owner t bases).map
          fun st => (⟨st.1, visiting⟩, st.2)) := by
  refine flatten.mutual_induct ⟨simple, defs.map (·.name)⟩ defs
    (fun free flat id => free.Nodup → id < defs.length → ∀ visiting, Flags defs.length free visiting →
      Run.of (Flattens ⟨simple, defs.map (·.name)⟩ defs ⟨flat, visiting⟩ id) = Run.ended
        ((flatten ⟨simple, defs.map (·.name)⟩ defs free flat id).map (⟨·, visiting⟩)))
    (fun free flat owner t bases => free.Nodup → ∀ visiting, Flags defs.length free visiting →
      Run.of (Inherits ⟨simple, defs.map (·.name)⟩ defs ⟨flat, visiting⟩ owner t bases) = Run.ended
        ((inheritAll ⟨simple, defs.map (·.name)⟩ defs free flat owner t bases).map
          fun st => (⟨st.1, visiting⟩, st.2)))
    ?_ ?_ ?_ ?_ ?_ ?_ ?_ ?_ ?_ ?_
  · intro free flat id t ht _ _ visiting _
    rw [flattens_compiled ht, flatten, ht]
    rfl
  · intro free flat id hd _ _ hid
    rw [List.getElem?_eq_getElem hid] at hd
    cases hd
  · intro free flat id d hd ht hmem fault hbases ih hfree hid visiting hflags
    have hflag : visiting[id]? = some false := by simpa [hmem] using hflags id hid
    rw [flattens_new ht hd hflag, ih (hfree.erase id) _ (hflags.set hfree hid), flatten, ht, hd]
    simp only [dif_pos hmem, hbases, Except.map, Run.bind_error]
  · intro free flat id d hd ht hmem flat₁ t₁ hbases fault hadd ih hfree hid visiting hflags
    have hflag : visiting[id]? = some false := by simpa [hmem] using hflags id hid
    rw [flattens_new ht hd hflag, ih (hfree.erase id) _ (hflags.set hfree hid), flatten, ht, hd]
    simp only [dif_pos hmem, hbases, hadd, Except.map, Run.bind_ok]
  · intro free flat id d hd ht hmem flat₁ t₁ hbases t₂ slots hadd ih hfree hid visiting hflags
    have hflag : visiting[id]? = some false := by simpa [hmem] using hflags id hid
    rw [flattens_new ht hd hflag, ih (hfree.erase id) _ (hflags.set hfree hid), flatten, ht, hd]
    simp only [dif_pos hmem, hbases, hadd, Except.map, Run.bind_ok, Building.put,
      Flags.reset hflag]
  · intro free flat id d hd ht hmem hfree hid visiting hflags
    have hflag : visiting[id]? = some true := by simpa [hmem] using hflags id hid
    rw [flattens_visiting ht hd hflag, flatten, ht, hd]
    simp only [dif_neg hmem]
    rfl
  · intro free flat owner t _ visiting _
    rw [inherits_nil, inheritAll]
    rfl
  · intro free flat owner t name rest fault hlookup _ visiting _
    rw [inherits_cons, inheritAll, hlookup]
    exact Run.bind_error fault _
  · intro free flat owner t name rest base hlookup fault hflatten ih hfree visiting hflags
    have hlt := lt_of_lookup hlookup
    rw [List.length_map] at hlt
    rw [inherits_cons, inheritAll, hlookup, Run.bind_ok, ih hfree hlt visiting hflags]
    simp only [hflatten]
    exact Run.bind_error fault _
  · intro free flat owner t name rest base hlookup flat₁ hflatten t₁ ih ihrest hfree visiting hflags
    have hlt := lt_of_lookup hlookup
    rw [List.length_map] at hlt
    rw [inherits_cons, inheritAll, hlookup, Run.bind_ok, ih hfree hlt visiting hflags]
    simp only [hflatten]
    exact (Run.bind_ok _ _).trans (ihrest hfree visiting hflags)

theorem runComplex_eq (simple : List String) (defs : List ComplexTypeDef) :
    runComplex simple defs = Run.ended (compileComplex simple defs) := by
  refine Run.bind_ended fun _ _ => ?_
  have hflags : Flags defs.length (List.range defs.length) (Array.replicate defs.length false) := by
    intro id hid
    simp [hid]
  have hfold : (List.range defs.length).foldlM
      (fun st id => Run.of (Flattens ⟨simple, defs.map (·.name)⟩ defs st id))
      ⟨⟨[], #[]⟩, Array.replicate defs.length false⟩ = _ :=
    Run.foldlM_ended (Building.mk · (Array.replicate defs.length false))
      (fun flat id hid => (flattens_eq simple defs).1 _ flat id List.nodup_range
        (List.mem_range.1 hid) _ hflags) ⟨[], #[]⟩
  simp only [hfold]
  exact Run.bind_ended_map fun flat => rfl

/-! ## Frame classes -/

section

variable {classes : Array FrameClass} {name : String} {steps : Nat}

theorem checks_top : Run.of (Checks classes name steps none) = Run.ended (.ok ()) := by
  funext outcome
  refine propext ⟨fun h => ?_, ?_⟩
  · cases h
    rfl
  · rintro rfl
    exact .top

theorem checks_far {id : FrameClassId} (h : classes.size < steps + 1) :
    Run.of (Checks classes name steps (some id)) = Run.ended (.error (.cycle .frameClass name)) := by
  funext outcome
  refine propext ⟨fun hrun => ?_, ?_⟩
  · cases hrun with
    | far => rfl
    | up hnear => exact absurd h (Nat.not_lt.2 hnear)
  · rintro rfl
    exact .far h

theorem checks_up {id : FrameClassId} (h : steps + 1 ≤ classes.size) :
    Run.of (Checks classes name steps (some id)) =
      Run.of (Checks classes name (steps + 1) (classes[id]?.bind (·.parent?))) := by
  funext outcome
  refine propext ⟨fun hrun => ?_, .up h⟩
  cases hrun with
  | far hfar => exact absurd hfar (Nat.not_lt.2 h)
  | up _ hup => exact hup

/-- The count stops a walk just when there is no chain within the steps that are left. -/
theorem checks_eq (classes : Array FrameClass) (name : String) (left steps : Nat)
    (h : steps + left = classes.size) (current : Option FrameClassId) :
    Run.of (Checks classes name steps current) = Run.ended
      (match classChain? classes left current with
        | none => .error (.cycle .frameClass name)
        | some _ => .ok ()) := by
  induction left generalizing steps current with
  | zero =>
    cases current with
    | none => rw [checks_top, classChain?]
    | some id => rw [checks_far (by omega), classChain?]
  | succ left ih =>
    cases current with
    | none => rw [checks_top, classChain?]
    | some id =>
      rw [checks_up (by omega), ih (steps + 1) (by omega), classChain?]
      cases classChain? classes left (classes[id]?.bind (·.parent?)) <;> rfl

theorem foldlM_checks (cs : List FrameClass) :
    cs.foldlM (fun _ c => Run.of (Checks classes c.name 0 c.parent?)) () =
      Run.ended (checkChains classes cs) := by
  induction cs with
  | nil => rfl
  | cons c rest ih =>
    rw [List.foldlM_cons, checks_eq classes c.name classes.size 0 (Nat.zero_add _), checkChains]
    cases classChain? classes classes.size c.parent? with
    | none => exact Run.bind_error _ _
    | some chain => exact (Run.bind_ok _ _).trans ih

theorem runClasses_eq (typeNames : List String) (types : Array ComplexType)
    (defs : List FrameClassDef) :
    runClasses typeNames types defs = Run.ended (compileClasses typeNames types defs) := by
  refine Run.bind_ended fun _ _ => Run.bind_ended fun tables _ => ?_
  simp only [foldlM_checks]
  exact Run.bind_ended fun _ _ => rfl

end

/-! ## Frame types -/

section

variable {classes : Array FrameClass} {frameType : String} {found : NameMap FrameClassId}
  {properties : NameMap PropertyId}

theorem collects_top :
    Run.of (Collects classes frameType none found properties) = Run.ended (.ok (found, properties)) := by
  funext outcome
  refine propext ⟨fun h => ?_, ?_⟩
  · cases h
    rfl
  · rintro rfl
    exact .top

theorem collects_up {id : FrameClassId} {c : FrameClass} (hc : classes[id]? = some c) :
    Run.of (Collects classes frameType (some id) found properties) =
      Run.ended (mergeProperties frameType properties c.properties.entries) >>= fun properties =>
        Run.of (Collects classes frameType c.parent? (found.put c.name id) properties) := by
  funext outcome
  refine propext ⟨fun h => ?_, ?_⟩
  · cases h with
    | bad hc' hmerge =>
      rw [hc] at hc'
      cases hc'
      exact .inr ⟨_, hmerge.symm, rfl⟩
    | up hc' hmerge hup =>
      rw [hc] at hc'
      cases hc'
      exact .inl ⟨_, hmerge.symm, hup⟩
  · rintro (⟨properties', hmerge, hup⟩ | ⟨fault, hmerge, rfl⟩)
    · exact .up hc hmerge.symm hup
    · exact .bad hc hmerge.symm

end

/-- The classes of a chain, each under its name. -/
def named (defs : List FrameClassDef) (chain : List FrameClassId) : List (String × FrameClassId) :=
  chain.filterMap fun id => defs[id]?.map fun d => (d.name, id)

section

variable {defs : List FrameClassDef} {tables : ClassTables} {id : FrameClassId}
  {chain : List FrameClassId}

/-- Collecting ends where the chain does. -/
theorem collects_eq (hof : tables.Of (defs.map (·.name)) defs) (hnames : (defs.map (·.name)).Nodup)
    (frameType : String) (hchain : Lineage defs id chain) (found : NameMap FrameClassId)
    (properties : NameMap PropertyId) :
    Run.of (Collects tables.classes frameType (some id) found properties) = Run.ended
      (((chain.filterMap (tables.classes[·]?)).foldlM
        (fun m c => mergeProperties frameType m c.properties.entries) properties).map
          fun properties => ((named defs chain).foldl (fun m e => m.put e.1 e.2) found, properties)) := by
  induction hchain generalizing found properties with
  | @root id d hd hroot =>
    obtain ⟨first, c, hc, hgives⟩ := hof.classes hd
    have hparent : c.parent? = none := by
      have hbind := (hof.parent?_eq_none_iff hd).2 hroot
      rwa [hc, Option.bind_some] at hbind
    have hlist : [id].filterMap (tables.classes[·]?) = [c] := by simp [hc]
    have hnamed : named defs [id] = [(c.name, id)] := by simp [named, hd, hgives.name]
    rw [collects_up hc, hparent, hlist, hnamed, List.foldlM_cons]
    cases mergeProperties frameType properties c.properties.entries with
    | error fault => exact Run.bind_error fault _
    | ok merged => exact (Run.bind_ok merged _).trans collects_top
  | @child id parent chain hparent hrest ih =>
    have hd := List.getElem?_eq_getElem hparent.lt
    obtain ⟨first, c, hc, hgives⟩ := hof.classes hd
    have hup : c.parent? = some parent := by
      have hbind := (hof.parent?_eq_some_iff hnames).2 hparent
      rwa [hc, Option.bind_some] at hbind
    have hlist : (id :: chain).filterMap (tables.classes[·]?) =
        c :: chain.filterMap (tables.classes[·]?) := by simp [hc]
    have hnamed : named defs (id :: chain) = (c.name, id) :: named defs chain := by
      simp [named, hd, hgives.name]
    rw [collects_up hc, hup, hlist, hnamed, List.foldlM_cons]
    cases mergeProperties frameType properties c.properties.entries with
    | error fault => exact Run.bind_error fault _
    | ok merged => exact (Run.bind_ok merged _).trans (ih _ merged)

/-- No two classes of a chain have one name, so none takes the place of another one. -/
theorem values_named (hnames : (defs.map (·.name)).Nodup) (hchain : Lineage defs id chain) :
    (OrderedMap.ofList (named defs chain)).values = chain := by
  have hkeys : ((named defs chain).map (·.1)).Nodup := by
    rw [named, List.map_filterMap]
    refine (hchain.nodup hnames).filterMap fun i j name hi hj => ?_
    have hi' : (defs.map (·.name))[i]? = some name := by simpa using hi
    have hj' : (defs.map (·.name))[j]? = some name := by simpa using hj
    exact (List.getElem?_inj (List.getElem?_eq_some_iff.1 hi').1 hnames).1 (hi'.trans hj'.symm)
  have hsome : ∀ j ∈ chain, ((defs[j]?.map fun d => (d.name, j)).map fun e => e.2) = some j := by
    intro j hj
    rw [List.getElem?_eq_getElem (hchain.lt_of_mem j hj)]
    rfl
  rw [OrderedMap.values, OrderedMap.entries_ofList hkeys, named, List.map_filterMap,
    List.filterMap_congr hsome, List.filterMap_some]

theorem runFrameType_eq (hof : tables.Of (defs.map (·.name)) defs)
    (hnames : (defs.map (·.name)).Nodup) (hall : ∀ id < defs.length, ∃ chain, Lineage defs id chain)
    (typeNames : List String) (done : Array FrameType) (d : FrameTypeDef) :
    runFrameType (defs.map (·.name)) typeNames tables done d =
      Run.ended (compileFrameType (defs.map (·.name)) typeNames tables done d) := by
  refine Run.bind_ended fun primary hprimary => Run.bind_ended fun type _ => ?_
  have hlt := lt_of_lookup hprimary
  rw [List.length_map] at hlt
  obtain ⟨chain, hchain⟩ := hall primary hlt
  have hle := Nat.le_succ_of_le (hchain.length_le hnames)
  rw [← hof.size] at hle
  simp only [collects_eq hof hnames d.name hchain, hof.classChain?_of_lineage hnames hchain hle,
    Option.getD_some]
  have hvalues := values_named hnames hchain
  rw [OrderedMap.ofList] at hvalues
  cases d.customDesc? with
  | none =>
    refine (Run.bind_ok _ _).trans (Run.bind_ended_map fun properties => ?_)
    simp only [hvalues]
    split <;> rfl
  | some custom =>
    refine Run.bind_ended fun custom? _ => Run.bind_ended_map fun properties => ?_
    simp only [hvalues]
    split <;> rfl

theorem foldlM_runFrameType (hof : tables.Of (defs.map (·.name)) defs)
    (hnames : (defs.map (·.name)).Nodup) (hall : ∀ id < defs.length, ∃ chain, Lineage defs id chain)
    (typeNames : List String) (types : List FrameTypeDef) (done : Array FrameType) :
    types.foldlM (runFrameType (defs.map (·.name)) typeNames tables) done =
      Run.ended (types.foldlM (compileFrameType (defs.map (·.name)) typeNames tables) done) := by
  induction types generalizing done with
  | nil => rfl
  | cons d rest ih =>
    rw [List.foldlM_cons, List.foldlM_cons, runFrameType_eq hof hnames hall]
    exact Run.bind_ended fun done' _ => ih done'

end

/-! ## Definitions -/

theorem run_eq (d : Definition) : run d = Run.ended (ofDefinition d) := by
  refine Run.bind_ended fun simple _ => ?_
  rw [runComplex_eq]
  refine Run.bind_ended fun compiled _ => Run.bind_ended fun rootType _ => ?_
  rw [runClasses_eq]
  refine Run.bind_ended fun tables htables => ?_
  obtain ⟨hnames, hof, hall⟩ := lineage_of_compileClasses htables
  rw [foldlM_runFrameType hof hnames hall]
  exact Run.bind_ended fun frameTypes _ => rfl

/-- A definition that loads has no cycle, and each of its frame types has the chain of its class. -/
theorem of_ofDefinition {d : Definition} {s : Schema} (h : ofDefinition d = .ok s) :
    (WellFounded fun base id => Extends d.complexTypes id base) ∧
      (WellFounded fun parent id => Parent d.frameClasses id parent) ∧
      (∀ id < d.frameClasses.length, ∃ chain, Lineage d.frameClasses id chain) ∧
      List.Forall₂ (fun ft f => f.name = ft.name ∧ ∃ primary c, d.frameClasses[primary]? = some c ∧
        c.name = ft.frameClass ∧ Lineage d.frameClasses primary f.classes ∧ f.classes.Nodup)
        d.frameTypes s.frameTypes.toList := by
  obtain ⟨_, _, _, _, _, -, hcomplex, -, htables, hframes, rfl⟩ := exists_of_ofDefinition h
  obtain ⟨hnames, hof, hall⟩ := lineage_of_compileClasses htables
  refine ⟨wellFounded_extends hcomplex, wellFounded_parent htables, hall, ?_⟩
  refine (of_compileFrameTypes hframes).imp fun ft f hgives => ⟨hgives.name, ?_⟩
  obtain ⟨primary, c, hc, hname, hchain⟩ := hgives.lineage hof hnames hall
  exact ⟨primary, c, hc, hname, hchain, hchain.nodup hnames⟩

/-- Loading ends, with one outcome. A cycle is refused, and what is refused as a cycle is one. -/
theorem loading_ends (d : Definition) :
    (∀ outcome, run d outcome ↔ outcome = ofDefinition d) ∧
    ((∃ id, TransGen (Extends d.complexTypes) id id) ∨ (∃ id, TransGen (Parent d.frameClasses) id id) →
      ∃ fault, ofDefinition d = .error fault) ∧
    (∀ name, ofDefinition d = .error (.cycle .complexType name) → ∃ id c,
      d.complexTypes[id]? = some c ∧ c.name = name ∧ TransGen (Extends d.complexTypes) id id) ∧
    (∀ name, ofDefinition d = .error (.cycle .frameClass name) → ∃ id c j,
      d.frameClasses[id]? = some c ∧ c.name = name ∧ ReflTransGen (Parent d.frameClasses) id j ∧
        TransGen (Parent d.frameClasses) j j) ∧
    ∀ s, ofDefinition d = .ok s →
      (∀ id, ¬ TransGen (Extends d.complexTypes) id id) ∧
      (∀ id, ¬ TransGen (Parent d.frameClasses) id id) ∧
      (∀ id < d.frameClasses.length, ∃ chain, Lineage d.frameClasses id chain) ∧
      List.Forall₂ (fun ft f => f.name = ft.name ∧ ∃ primary c, d.frameClasses[primary]? = some c ∧
        c.name = ft.frameClass ∧ Lineage d.frameClasses primary f.classes ∧ f.classes.Nodup)
        d.frameTypes s.frameTypes.toList := by
  refine ⟨fun outcome => ?_, fun hcycle => ?_, fun name hfault => ?_, fun name hfault => ?_,
    fun s h => ?_⟩
  · rw [run_eq]
    rfl
  · cases h : ofDefinition d with
    | error fault => exact ⟨fault, rfl⟩
    | ok s =>
      obtain ⟨hbases, hparents, -⟩ := of_ofDefinition h
      rcases hcycle with ⟨id, hid⟩ | ⟨id, hid⟩
      · exact absurd hid (not_transGen_self (hbases.apply id))
      · exact absurd hid (not_transGen_self (hparents.apply id))
  · rcases of_ofDefinition_eq_error hfault with hsingle | ⟨_, hother, _⟩ | ⟨id, c, hc, hsame, hcycle⟩ |
      ⟨_, _, _, _, hother, _⟩ | ⟨_, _, _, hother, _⟩
    · exact hsingle.elim
    · cases hother
    · cases hsame
      exact ⟨id, c, hc, rfl, hcycle⟩
    · cases hother
    · cases hother
  · rcases of_ofDefinition_eq_error hfault with hsingle | ⟨_, hother, _⟩ | ⟨_, _, _, hother, _⟩ |
      ⟨id, c, j, hc, hsame, hreach, hcycle⟩ | ⟨_, _, _, hother, _⟩
    · exact hsingle.elim
    · cases hother
    · cases hother
    · cases hsame
      exact ⟨id, c, j, hc, rfl, hreach, hcycle⟩
    · cases hother
  · obtain ⟨hbases, hparents, hall, hframes⟩ := of_ofDefinition h
    exact ⟨fun id => not_transGen_self (hbases.apply id),
      fun id => not_transGen_self (hparents.apply id), hall, hframes⟩

/-- Two frame classes, each the parent of the other one. -/
def circle : Definition where
  root := ⟨"Root", "Base"⟩
  simpleTypes := []
  complexTypes := [⟨"Base", [], ⟨false, false, false⟩, [], [], [], none, none⟩]
  frameClasses := [⟨"Button", some "Control", "Base", []⟩, ⟨"Control", some "Button", "Base", []⟩]
  frameTypes := [⟨"Button", "Button", "Base", false, none⟩]

/-- Collecting the classes of the frame type would not end; but it is not begun. -/
theorem loading_ends_circle : run circle (.error (.cycle .frameClass "Button")) ∧
    ∃ j, TransGen (Parent circle.frameClasses) j j := by
  have hload : ofDefinition circle = .error (.cycle .frameClass "Button") := by cbv
  obtain ⟨hrun, -, -, hcycle, -⟩ := loading_ends circle
  obtain ⟨id, c, j, -, -, -, hj⟩ := hcycle "Button" hload
  exact ⟨(hrun _).2 hload.symm, j, hj⟩

end Schema
end UILayout
