import UILayout.Proofs.Check.Spans

/-!
# UILayout.Proofs.Check.Codes

Which check reports under which code. The checks of values have codes of their own, so the reports with
any other code can be picked out of the reports of all checks, each from the checks that make it.

* `Finding.code_mem_iff`: the codes of what is not about values.
* `filter_inTurn`, `inTurn_filter`: picking reports out of those of checks that are made in turn.
-/

namespace UILayout
namespace Check

open Text Schema Markup Namespace

/-- The codes of findings about elements, about names of attributes and about declarations. -/
def Finding.ownCodes : List String :=
  ["E0002", "E0003", "E0004", "E0005", "E0006", "E0508", "E0509", "E0510"]

theorem Finding.code_mem_iff (finding : Finding) :
    finding.code ∈ ownCodes ↔ finding.isOfValue = false := by
  cases finding with
  | selector fault =>
    cases fault <;>
      simp [ownCodes, isOfValue, code, Selector.Fault.code, Selector.Code.name]
  | _ => simp [ownCodes, isOfValue, code]

/-- The reports of a list with a code. -/
def withCode (code : String) (reports : List Report) : List Report :=
  reports.filter (·.finding.code = code)

section

variable {code : String} {reports more : List Report}

theorem withCode_append :
    withCode code (reports ++ more) = withCode code reports ++ withCode code more :=
  List.filter_append _ _

theorem withCode_eq_self (h : ∀ r ∈ reports, r.finding.code = code) : withCode code reports = reports :=
  List.filter_eq_self.2 fun r hr => decide_eq_true (h r hr)

theorem withCode_eq_nil (h : ∀ r ∈ reports, r.finding.code ≠ code) : withCode code reports = [] :=
  List.filter_eq_nil_iff.2 fun r hr hcode => h r hr (of_decide_eq_true hcode)

/-- Reports under one code are not found under another one. -/
theorem withCode_eq_nil_of_code {own : String} (h : ∀ r ∈ reports, r.finding.code = own)
    (hne : own ≠ code) : withCode code reports = [] :=
  withCode_eq_nil fun r hr => by rwa [h r hr]

/-- No report on a value has a code that is not about values. -/
theorem withCode_ofValue {a : Attribute} (h : ∀ r ∈ reports, r.OnValue a)
    (hcode : code ∈ Finding.ownCodes) : withCode code reports = [] := by
  refine withCode_eq_nil fun r hr heq => ?_
  have hother := (Finding.code_mem_iff r.finding).1 (heq ▸ hcode)
  rw [(h r hr).isOfValue] at hother
  cases hother

end

section

variable {α : Type} {check check' : Hierarchy → α → Reports} {p : Report → Bool}

/-- What is picked out of the reports of checks is what is picked out of each, where this does not
depend on what has been looked up before. -/
theorem filter_inTurn {own : α → List Report} (hown : ∀ h a, (check h a).1.filter p = own a)
    (h : Hierarchy) (items : List α) : (inTurn check h items).1.filter p = items.flatMap own := by
  induction items generalizing h with
  | nil => rfl
  | cons a rest ih =>
    rw [inTurn, List.filter_append, hown, ih, List.flatMap_cons]

/-- Checks that leave some reports out leave them out when they are made in turn. -/
theorem inTurn_filter (hcheck : ∀ h a, check' h a = ((check h a).1.filter p, (check h a).2))
    (h : Hierarchy) (items : List α) :
    inTurn check' h items = ((inTurn check h items).1.filter p, (inTurn check h items).2) := by
  induction items generalizing h with
  | nil => rfl
  | cons a rest ih => simp only [inTurn, hcheck, ih, List.filter_append]

end

/-! ## Elements -/

section

variable {ctx : Context} {doc : Document} {h : Hierarchy} {e : Element} {r : Report}

theorem isDeclaration_checkDeclaration {ref : ElementRef} {desc : DescId}
    (hr : r ∈ (checkDeclaration ctx doc h ref e desc).1) : r.finding.isDeclaration = true := by
  unfold checkDeclaration at hr
  split at hr
  · cases hr
  · split at hr
    · unfold checkFile at hr
      split at hr
      · rw [List.mem_singleton.1 hr]
        rfl
      · split at hr
        · cases hr
        · rw [List.mem_singleton.1 hr]
          rfl
    · unfold checkRedeclared at hr
      split at hr
      · cases hr
      · rw [List.mem_singleton.1 hr]
        rfl

/-- The check of an element reports on what it declares, on one of its attributes, or on a wildcard. -/
theorem mem_checkElement {bound : ElementId × Element × Binding}
    (hr : r ∈ (checkElement ctx doc h bound).1) :
    r.finding.isDeclaration = true ∨ (∃ a ∈ bound.2.1.attributes, r.On a) ∨
      ∃ key, r = .plain (.unusedWildcard key) bound.2.1.tagSpan := by
  unfold checkElement at hr
  dsimp only at hr
  generalize (if (ctx.schema.slotKind bound.2.2.slot).declares = true then
    ctx.names.declared? (doc.ref bound.1) else none) = declared? at hr
  cases declared? with
  | none =>
    split at hr
    · cases hr
    · exact .inr (mem_checkAttributes hr)
  | some desc =>
    split at hr
    · exact .inl (isDeclaration_checkDeclaration hr)
    · rcases List.mem_append.1 hr with hr | hr
      · exact .inl (isDeclaration_checkDeclaration hr)
      · exact .inr (mem_checkAttributes hr)

theorem Report.On.isStructural {a : Attribute} (h : r.On a) : r.finding.isStructural = false := by
  cases h with
  | @name finding hname => cases finding <;> first | rfl | cases hname
  | ofValue h =>
    have hvalue := h.isOfValue
    cases hfinding : r.finding <;> first | rfl | (rw [hfinding] at hvalue; cases hvalue)

/-- What the check of an element reports is not about structure. -/
theorem isStructural_checkElement {bound : ElementId × Element × Binding}
    (hr : r ∈ (checkElement ctx doc h bound).1) : r.finding.isStructural = false := by
  rcases mem_checkElement hr with hdeclaration | ⟨a, -, hon⟩ | ⟨key, rfl⟩
  · cases hfinding : r.finding <;> first | rfl | (rw [hfinding] at hdeclaration; cases hdeclaration)
  · exact hon.isStructural
  · rfl

theorem Finding.isStructural_iff (finding : Finding) :
    finding.isStructural = true ↔ finding.code = "E0002" ∨ finding.code = "E0004" := by
  cases finding with
  | selector fault =>
    cases fault <;> simp [isStructural, code, Selector.Fault.code, Selector.Code.name]
  | _ => simp [isStructural, code]

theorem Finding.isDeclaration_iff (finding : Finding) :
    finding.isDeclaration = true ↔ finding.code ∈ ["E0508", "E0509", "E0510"] := by
  cases finding with
  | selector fault =>
    cases fault <;> simp [isDeclaration, code, Selector.Fault.code, Selector.Code.name]
  | _ => simp [isDeclaration, code]

theorem code_missingAttributes {t : ComplexType} :
    ∀ r ∈ missingAttributes t e, r.finding.code = "E0002" := by
  intro r hr
  obtain ⟨a, -, rfl⟩ := List.mem_map.1 hr
  rfl

theorem code_unknownElements {id : ElementId} :
    ∀ r ∈ unknownElements doc id, r.finding.code = "E0004" := by
  intro r hr
  obtain ⟨child, -, hr⟩ := List.mem_filterMap.1 hr
  split at hr
  · cases hr
    rfl
  · cases hr

end

end Check
end UILayout
