import Mathlib.Data.List.Perm.Subperm
import UILayout.Proofs.Markup.Value
import UILayout.Proofs.Namespace.History

/-!
# UILayout.Proofs.Namespace.Chain

Constants that stand for constants. The value of a constant may name another one, whose value may name
the next. A trail follows the values for as long as no name comes back, and there is only one way to go
on: it ends at a value that names nothing, at a name that nothing is declared under, or where it would
come back to itself.

* `Reference.ofValue?_eq_some_iff`: which values name a constant.
* `constantsFrom?_eq_some_iff`, `constantsFrom?_eq_none_iff`: what following the values gives, as long
  as the names of a trail have not come yet.
* `constantChain?_exact`: the constants that a name leads through are the trail that ends at a literal
  value, and there are none just when the trail ends in another way.
-/

namespace UILayout
namespace Namespace

open Text Markup

/-! ## Values that name constants -/

/-- The ways to write a reference. A reserved word of selectors behind the dollar sign names no
constant. -/
inductive Reference.Spells : Reference → String → Prop where
  | exact {name : String} : isIdentifier name.toList → ¬ Selector.Step.isKeyword name →
      Spells (.exact name) ("$" ++ name)
  | racial {name : String} : isIdentifier name.toList → Spells (.racial name) ("#" ++ name)

/-- The names that a reference may mean, the first declared of which it does mean. -/
def Reference.candidates : Reference → List String
  | .exact name => [name]
  | .racial name => [name, name ++ "_Prot", name ++ "_Zerg", name ++ "_Terr"]

theorem Reference.spells_exact_iff {name value : String} :
    (Reference.exact name).Spells value ↔
      ValueForm.ofText value.toList = .constant ∧ String.ofList (value.toList.drop 1) = name := by
  rw [ValueForm.ofText_eq_constant_iff]
  constructor
  · rintro ⟨hname, hword⟩
    exact ⟨⟨name.toList, by simp, hname, by simpa using hword⟩, by simp⟩
  · rintro ⟨⟨cs, hvalue, hname, hword⟩, rfl⟩
    have hspell : value = "$" ++ String.ofList cs := by
      rw [← String.toList_inj, hvalue]
      simp
    rw [hvalue, hspell]
    exact .exact (by simpa using hname) hword

theorem Reference.spells_racial_iff {name value : String} :
    (Reference.racial name).Spells value ↔
      ValueForm.ofText value.toList = .racialConstant ∧ String.ofList (value.toList.drop 1) = name := by
  rw [ValueForm.ofText_eq_racialConstant_iff]
  constructor
  · intro h
    cases h with
    | racial hname => exact ⟨⟨name.toList, by simp, hname⟩, by simp⟩
  · rintro ⟨⟨cs, hvalue, hname⟩, rfl⟩
    have hspell : value = "#" ++ String.ofList cs := by
      rw [← String.toList_inj, hvalue]
      simp
    rw [hvalue, hspell]
    exact .racial (by simpa using hname)

theorem Reference.ofValue?_eq_some_iff {value : String} {r : Reference} :
    ofValue? value = some r ↔ r.Spells value := by
  unfold ofValue?
  cases r with
  | exact name =>
    rw [spells_exact_iff]
    cases ValueForm.ofText value.toList <;> simp
  | racial name =>
    rw [spells_racial_iff]
    cases ValueForm.ofText value.toList <;> simp

theorem resolve?_eq_findSome? (n : Namespace) (r : Reference) :
    n.resolve? r = r.candidates.findSome? n.constant? := by
  cases r with
  | exact name => simp [resolve?, Reference.candidates]
  | racial name =>
    simp only [resolve?, racialConstant?, raceSuffixes, Reference.candidates, List.findSome?_cons,
      List.findSome?_nil]
    cases n.constant? name <;> rfl

/-! ## Trails -/

/-- `d` is the declaration that the value of `c` names. -/
def StandsFor (n : Namespace) (c d : Constant) : Prop :=
  ∃ r : Reference, r.Spells c.value ∧ r.candidates.findSome? n.constant? = some d

/-- The value of `c` names what is not declared. -/
def Dangles (n : Namespace) (c : Constant) : Prop :=
  ∃ r : Reference, r.Spells c.value ∧ ∀ name ∈ r.candidates, n.constant? name = none

/-- The value of a constant names no other. -/
def Constant.Literal (c : Constant) : Prop := ∀ r : Reference, ¬ r.Spells c.value

/-- From a first constant to a last one, each standing for the next, and no name twice. -/
inductive Trail (n : Namespace) : Constant → List Constant → Constant → Prop where
  | stop {c : Constant} : Trail n c [c] c
  | step {c next last : Constant} {rest : List Constant} : n.StandsFor c next →
      Trail n next rest last → c.name ∉ rest.map (·.name) → Trail n c (c :: rest) last

section

variable {n : Namespace} {c d : Constant}

theorem standsFor_iff :
    n.StandsFor c d ↔ ∃ r, c.reference? = some r ∧ n.resolve? r = some d := by
  simp only [StandsFor, Constant.reference?, Reference.ofValue?_eq_some_iff, resolve?_eq_findSome?]

theorem dangles_iff : n.Dangles c ↔ ∃ r, c.reference? = some r ∧ n.resolve? r = none := by
  simp only [Dangles, Constant.reference?, Reference.ofValue?_eq_some_iff, resolve?_eq_findSome?,
    List.findSome?_eq_none_iff]

theorem Constant.literal_iff : c.Literal ↔ c.reference? = none := by
  simp only [Literal, Constant.reference?, ← Reference.ofValue?_eq_some_iff,
    Option.eq_none_iff_forall_ne_some, ne_eq]

/-- A constant stands for one other at most. -/
theorem standsFor_of_reference? {r : Reference} (h : c.reference? = some r) :
    n.StandsFor c d ↔ n.resolve? r = some d := by
  simp [standsFor_iff, h]

theorem dangles_of_reference? {r : Reference} (h : c.reference? = some r) :
    n.Dangles c ↔ n.resolve? r = none := by
  simp [dangles_iff, h]

end

section

variable {n : Namespace} {free : List String} {c first last : Constant} {chain : List Constant}

theorem forall_mem_erase_iff (hfree : free.Nodup) :
    (∀ d ∈ chain, d.name ∈ free.erase c.name) ↔
      (∀ d ∈ chain, d.name ∈ free) ∧ c.name ∉ chain.map (·.name) := by
  simp only [hfree.mem_erase_iff, List.mem_map, not_exists, not_and]
  exact ⟨fun h => ⟨fun d hd => (h d hd).2, fun d hd => (h d hd).1⟩,
    fun h d hd => ⟨h.2 d hd, h.1 d hd⟩⟩

/-- Following the values gives a trail of names that have not come yet, up to a literal value. -/
theorem constantsFrom?_eq_some_iff (hfree : free.Nodup) :
    n.constantsFrom? free c = some chain ↔
      ∃ last, n.Trail c chain last ∧ (∀ d ∈ chain, d.name ∈ free) ∧ last.Literal := by
  fun_induction constantsFrom? n free c generalizing chain with
  | case1 free c hc hreference =>
    have hliteral := Constant.literal_iff.2 hreference
    constructor
    · rintro ⟨⟩
      exact ⟨c, .stop, by simpa using hc, hliteral⟩
    · rintro ⟨last, htrail, -, -⟩
      cases htrail with
      | stop => rfl
      | step hstands =>
        obtain ⟨r, hr, -⟩ := standsFor_iff.1 hstands
        rw [hreference] at hr
        cases hr
  | case2 free c hc r hreference hresolve =>
    refine iff_of_false nofun ?_
    rintro ⟨last, htrail, -, hliteral⟩
    cases htrail with
    | stop =>
      rw [Constant.literal_iff, hreference] at hliteral
      cases hliteral
    | step hstands =>
      rw [standsFor_of_reference? hreference, hresolve] at hstands
      cases hstands
  | case3 free c hc r hreference next hresolve ih =>
    rw [Option.map_eq_some_iff]
    constructor
    · rintro ⟨rest, hrest, rfl⟩
      obtain ⟨last, htrail, hmem, hliteral⟩ := (ih (hfree.erase _)).1 hrest
      obtain ⟨hmem, hnew⟩ := (forall_mem_erase_iff hfree).1 hmem
      refine ⟨last, .step ((standsFor_of_reference? hreference).2 hresolve) htrail hnew, ?_, hliteral⟩
      exact List.forall_mem_cons.2 ⟨hc, hmem⟩
    · rintro ⟨last, htrail, hmem, hliteral⟩
      cases htrail with
      | stop =>
        rw [Constant.literal_iff, hreference] at hliteral
        cases hliteral
      | @step _ next' _ rest hstands htrail hnew =>
        rw [standsFor_of_reference? hreference, hresolve] at hstands
        cases hstands
        refine ⟨rest, (ih (hfree.erase _)).2 ⟨last, htrail, ?_, hliteral⟩, rfl⟩
        exact (forall_mem_erase_iff hfree).2 ⟨(List.forall_mem_cons.1 hmem).2, hnew⟩
  | case4 free c hc =>
    refine iff_of_false nofun ?_
    rintro ⟨last, htrail, hmem, -⟩
    cases htrail with
    | stop => exact hc (hmem c List.mem_cons_self)
    | step => exact hc (hmem c List.mem_cons_self)

/-- A trail that cannot go on: what its last constant names is not declared, or has come before. -/
inductive Stuck (n : Namespace) (free : List String) (chain : List Constant) (last : Constant) :
    Prop where
  | dangling : n.Dangles last → Stuck n free chain last
  | again {next : Constant} : n.StandsFor last next →
      next.name ∈ chain.map (·.name) ∨ next.name ∉ free → Stuck n free chain last

theorem Stuck.cons_iff (hfree : free.Nodup) :
    n.Stuck (free.erase c.name) chain last ↔ n.Stuck free (c :: chain) last := by
  have hnew : ∀ next : Constant,
      next.name ∈ chain.map (·.name) ∨ next.name ∉ free.erase c.name ↔
        next.name ∈ (c :: chain).map (·.name) ∨ next.name ∉ free := by
    intro next
    rw [hfree.mem_erase_iff, List.map_cons, List.mem_cons, not_and_or, not_not]
    tauto
  constructor
  · rintro (hdangles | ⟨hstands, hagain⟩)
    · exact .dangling hdangles
    · exact .again hstands ((hnew _).1 hagain)
  · rintro (hdangles | ⟨hstands, hagain⟩)
    · exact .dangling hdangles
    · exact .again hstands ((hnew _).2 hagain)

/-- Nothing comes of following the values just when a trail gets stuck. -/
theorem constantsFrom?_eq_none_iff (hfree : free.Nodup) :
    n.constantsFrom? free c = none ↔ c.name ∉ free ∨
      ∃ chain last, n.Trail c chain last ∧ (∀ d ∈ chain, d.name ∈ free) ∧ n.Stuck free chain last := by
  fun_induction constantsFrom? n free c with
  | case1 free c hc hreference =>
    refine iff_of_false nofun ?_
    rintro (hnot | ⟨chain, last, htrail, -, hstuck⟩)
    · exact hnot hc
    · cases htrail with
      | stop =>
        rcases hstuck with hdangles | hstands
        · obtain ⟨r, hr, -⟩ := dangles_iff.1 hdangles
          simp [hreference] at hr
        · obtain ⟨r, hr, -⟩ := standsFor_iff.1 hstands
          simp [hreference] at hr
      | step hstands =>
        obtain ⟨r, hr, -⟩ := standsFor_iff.1 hstands
        simp [hreference] at hr
  | case2 free c hc r hreference hresolve =>
    have hdangles := (dangles_of_reference? hreference).2 hresolve
    exact iff_of_true rfl (.inr ⟨[c], c, .stop, by simpa using hc, .dangling hdangles⟩)
  | case3 free c hc r hreference next hresolve ih =>
    have hnext : n.StandsFor c next := (standsFor_of_reference? hreference).2 hresolve
    rw [Option.map_eq_none_iff, ih (hfree.erase _)]
    constructor
    · rintro (hnot | ⟨chain, last, htrail, hmem, hstuck⟩)
      · have hstuck := (Stuck.cons_iff hfree).1 (.again hnext (.inr hnot) : n.Stuck _ [] c)
        exact .inr ⟨[c], c, .stop, by simpa using hc, hstuck⟩
      · obtain ⟨hmem, hnew⟩ := (forall_mem_erase_iff hfree).1 hmem
        refine .inr ⟨c :: chain, last, .step hnext htrail hnew, ?_, (Stuck.cons_iff hfree).1 hstuck⟩
        exact List.forall_mem_cons.2 ⟨hc, hmem⟩
    · rintro (hnot | ⟨chain, last, htrail, hmem, hstuck⟩)
      · exact absurd hc hnot
      · cases htrail with
        | stop =>
          left
          rcases (Stuck.cons_iff hfree).2 hstuck with hdangles | ⟨hstands, hagain⟩
          · rw [dangles_of_reference? hreference, hresolve] at hdangles
            cases hdangles
          · rw [standsFor_of_reference? hreference, hresolve] at hstands
            cases hstands
            simpa using hagain
        | @step _ next' _ rest hstands htrail hnew =>
          rw [standsFor_of_reference? hreference, hresolve] at hstands
          cases hstands
          refine .inr ⟨rest, last, htrail, ?_, (Stuck.cons_iff hfree).2 hstuck⟩
          exact (forall_mem_erase_iff hfree).2 ⟨(List.forall_mem_cons.1 hmem).2, hnew⟩
  | case4 free c hc => exact iff_of_true rfl (.inl hc)

end

/-! ## Chains -/

section

variable {n : Namespace} {name : String} {first last : Constant} {chain : List Constant}

theorem Settled.mem_keys_of_constant? (h : Settled n) (hc : n.constant? name = some first) :
    first.name ∈ n.constants.keys := by
  obtain ⟨values, hvalues, hhead⟩ := Option.bind_eq_some_iff.1 hc
  have hname : first.name = name := h.constants.named ⟨values, hvalues, List.mem_of_head? hhead⟩
  rw [hname]
  exact (OrderedMap.mem_keys_iff _ _).2 ⟨values, hvalues⟩

theorem Settled.mem_keys_of_standsFor (h : Settled n) (hs : n.StandsFor first last) :
    last.name ∈ n.constants.keys := by
  obtain ⟨r, -, hfound⟩ := hs
  obtain ⟨name, -, hc⟩ := List.exists_of_findSome?_eq_some hfound
  exact h.mem_keys_of_constant? hc

theorem Settled.mem_keys_of_trail (h : Settled n) (hfirst : first.name ∈ n.constants.keys)
    (htrail : n.Trail first chain last) : ∀ c ∈ chain, c.name ∈ n.constants.keys := by
  induction htrail with
  | stop => simpa using hfirst
  | step hstands _ _ ih => exact List.forall_mem_cons.2 ⟨hfirst, ih (h.mem_keys_of_standsFor hstands)⟩

theorem Trail.nodup (h : n.Trail first chain last) : (chain.map (·.name)).Nodup := by
  induction h with
  | stop => simp
  | step _ _ hnew ih => exact List.nodup_cons.2 ⟨hnew, ih⟩

/-- As no name comes twice, a trail ends when all names have come. -/
theorem Settled.length_trail_le (h : Settled n) (hfirst : first.name ∈ n.constants.keys)
    (htrail : n.Trail first chain last) : chain.length ≤ n.constants.keys.length := by
  have hsub : chain.map (·.name) ⊆ n.constants.keys := by
    rintro _ hmem
    obtain ⟨c, hc, rfl⟩ := List.mem_map.1 hmem
    exact h.mem_keys_of_trail hfirst htrail c hc
  simpa using (htrail.nodup.subperm hsub).length_le

end

/-- The constants that a name leads through are the trail from its first declaration to a literal value.
There are none just when there is no declaration, or when a trail from it comes to a name that is not
declared or back to one that it has been through. No trail is longer than there are names. -/
theorem constantChain?_exact (history : List Update) (name : String) :
    (∀ chain, (after history).constantChain? name = some chain ↔
      ∃ first last, (after history).constant? name = some first ∧
        (after history).Trail first chain last ∧ last.Literal) ∧
    ((after history).constantChain? name = none ↔ (after history).constant? name = none ∨
      ∃ first chain last, (after history).constant? name = some first ∧
        (after history).Trail first chain last ∧
        ((after history).Dangles last ∨
          ∃ next, (after history).StandsFor last next ∧ next.name ∈ chain.map (·.name))) ∧
    ∀ first chain last, (after history).constant? name = some first →
      (after history).Trail first chain last → chain.length ≤ (after history).constants.keys.length := by
  have h := settled_after history
  have hkeys := h.constants.distinct
  refine ⟨fun chain => ?_, ?_, fun first chain last hfirst =>
    h.length_trail_le (h.mem_keys_of_constant? hfirst)⟩
  · rw [constantChain?, Option.bind_eq_some_iff]
    constructor
    · rintro ⟨first, hfirst, hchain⟩
      obtain ⟨last, htrail, -, hliteral⟩ := (constantsFrom?_eq_some_iff hkeys).1 hchain
      exact ⟨first, last, hfirst, htrail, hliteral⟩
    · rintro ⟨first, last, hfirst, htrail, hliteral⟩
      have hmem := h.mem_keys_of_trail (h.mem_keys_of_constant? hfirst) htrail
      exact ⟨first, hfirst, (constantsFrom?_eq_some_iff hkeys).2 ⟨last, htrail, hmem, hliteral⟩⟩
  · cases hfirst : (after history).constant? name with
    | none => simp [constantChain?, hfirst]
    | some first =>
      have hmem := h.mem_keys_of_constant? hfirst
      rw [constantChain?, hfirst, Option.bind_some, constantsFrom?_eq_none_iff hkeys]
      constructor
      · rintro (hnot | ⟨chain, last, htrail, -, hstuck⟩)
        · exact absurd hmem hnot
        · refine .inr ⟨first, chain, last, rfl, htrail, ?_⟩
          rcases hstuck with hdangles | @⟨next, hstands, hagain⟩
          · exact .inl hdangles
          · have hnext := h.mem_keys_of_standsFor hstands
            exact .inr ⟨next, hstands, hagain.resolve_right (not_not_intro hnext)⟩
      · rintro (hnone | ⟨first', chain, last, hfirst', htrail, hstuck⟩)
        · cases hnone
        · cases hfirst'
          refine .inr ⟨chain, last, htrail, h.mem_keys_of_trail hmem htrail, ?_⟩
          rcases hstuck with hdangles | ⟨next, hstands, hagain⟩
          · exact .dangling hdangles
          · exact .again hstands (.inl hagain)

end Namespace
end UILayout
