import UILayout.Proofs.Check.Codes

/-!
# UILayout.Proofs.Check.Wildcards

The wildcards of a type are for the attributes that it does not define: the first of them uses the first
wildcard, and so on. Attributes that are left over are unknown, and wildcards that are left over are
reported as missing.

* `snd_typeAttributes`, `filter_typeAttributes`: which attribute uses which wildcard.
* `checkAttributes_accounts`: what is reported on the attributes of an element.
-/

namespace UILayout
namespace Check

open Text Schema Markup Namespace

/-- A type has no definition for an attribute. -/
def undefined (t : ComplexType) (a : Attribute) : Bool := (t.attributes.get? a.name).isNone

/-! ## Typing -/

section

variable {t : ComplexType}

theorem undefined_of_get? {a : Attribute} {defined : AttributeType}
    (h : t.attributes.get? a.name = some defined) : undefined t a = false := by
  rw [undefined, h]
  rfl

theorem undefined_of_get?_none {a : Attribute} (h : t.attributes.get? a.name = none) :
    undefined t a = true := by
  rw [undefined, h]
  rfl

/-- As many wildcards are used up as there are attributes without a definition. -/
theorem snd_typeAttributes (unused : List Wildcard) (as : List Attribute) :
    (typeAttributes t unused as).2 = unused.drop (as.filter (undefined t)).length := by
  induction as generalizing unused with
  | nil => rfl
  | cons a rest ih =>
    cases h : t.attributes.get? a.name with
    | some defined => simp [typeAttributes, h, ih, undefined_of_get? h]
    | none => cases unused <;> simp [typeAttributes, h, ih, undefined_of_get?_none h]

/-- An attribute with a definition has the type that the definition says. -/
theorem declared_of_mem_typeAttributes {unused : List Wildcard} {as : List Attribute}
    {typed : Attribute × Typing} (h : typed ∈ (typeAttributes t unused as).1) {defined : AttributeType}
    (hdefined : t.attributes.get? typed.1.name = some defined) : typed.2 = .declared defined.type := by
  induction as generalizing unused with
  | nil => cases h
  | cons a rest ih =>
    cases ha : t.attributes.get? a.name with
    | some defined' =>
      simp only [typeAttributes, ha] at h
      rcases List.mem_cons.1 h with rfl | h
      · rw [ha] at hdefined
        cases hdefined
        rfl
      · exact ih h
    | none =>
      cases unused with
      | nil =>
        simp only [typeAttributes, ha] at h
        rcases List.mem_cons.1 h with rfl | h
        · simp [ha] at hdefined
        · exact ih h
      | cons rule left =>
        simp only [typeAttributes, ha] at h
        rcases List.mem_cons.1 h with rfl | h
        · simp [ha] at hdefined
        · exact ih h

/-- The attributes without a definition use one wildcard after the other, and are unknown when none is
left. -/
theorem filter_typeAttributes (unused : List Wildcard) (as : List Attribute) :
    let extra := as.filter (undefined t)
    (typeAttributes t unused as).1.filter (fun typed => undefined t typed.1) =
      (extra.zip unused).map (fun used => (used.1, .wildcard used.2)) ++
        (extra.drop unused.length).map fun a => (a, .unknown) := by
  induction as generalizing unused with
  | nil => simp [typeAttributes]
  | cons a rest ih =>
    cases h : t.attributes.get? a.name with
    | some defined => simpa [typeAttributes, h, undefined_of_get? h] using ih unused
    | none =>
      cases unused with
      | nil => simpa [typeAttributes, h, undefined_of_get?_none h] using ih []
      | cons rule left => simpa [typeAttributes, h, undefined_of_get?_none h] using ih left

end

/-! ## Reports -/

/-- Checks the name of an attribute: whether its type knows it, or its wildcard accepts it. -/
def checkName (s : Schema) (allowExtra : Bool) (typed : Attribute × Typing) : List Report :=
  match typed.2 with
  | .declared _ => []
  | .wildcard rule => wildcardName s typed.1 rule.key
  | .unknown => if allowExtra then [] else [.plain (.unknownAttribute typed.1.name) typed.1.nameSpan]

/-- Checks the value of an attribute, if it has a type. -/
def checkTyped (ctx : Context) (scope : DescId) (h : Hierarchy) (typed : Attribute × Typing) : Reports :=
  match typed.2.value? with
  | some type => checkValue ctx scope h typed.1 type
  | none => ([], h)

/-- The codes of the reports on how attributes and wildcards go together. -/
def accountCodes : List String := ["E0003", "E0005", "E0006"]

section

variable {ctx : Context} {scope : DescId} {h : Hierarchy}

/-- An attribute is checked by its name and by its value. -/
theorem checkAttribute_eq (allowExtra : Bool) (typed : Attribute × Typing) :
    checkAttribute ctx allowExtra scope h typed =
      (checkName ctx.schema allowExtra typed ++ (checkTyped ctx scope h typed).1,
        (checkTyped ctx scope h typed).2) := by
  obtain ⟨a, typing⟩ := typed
  cases typing with
  | declared type => rfl
  | wildcard rule => rfl
  | unknown => exact Prod.ext (List.append_nil _).symm rfl

theorem checkTyped_onValue (typed : Attribute × Typing) :
    ∀ r ∈ (checkTyped ctx scope h typed).1, r.OnValue typed.1 := by
  unfold checkTyped
  split
  · exact checkValue_onValue ctx scope h _
  · exact List.forall_mem_nil _

theorem code_wildcardName (s : Schema) (a : Attribute) (key : SimpleTypeId) :
    ∀ r ∈ wildcardName s a key, r.finding.code = "E0006" := by
  unfold wildcardName
  split
  · split
    · exact List.forall_mem_singleton.2 rfl
    · exact List.forall_mem_nil _
  · split
    · exact List.forall_mem_nil _
    · exact List.forall_mem_singleton.2 rfl

theorem code_checkName (s : Schema) (allowExtra : Bool) (typed : Attribute × Typing) :
    ∀ r ∈ checkName s allowExtra typed, r.finding.code ∈ accountCodes := by
  unfold checkName
  split
  · exact List.forall_mem_nil _
  · intro r hr
    rw [code_wildcardName _ _ _ r hr]
    decide
  · split
    · exact List.forall_mem_nil _
    · refine List.forall_mem_singleton.2 ?_
      simp [Report.plain, Finding.code, accountCodes]

theorem code_unusedWildcards (s : Schema) (e : Element) (unused : List Wildcard) :
    ∀ r ∈ unusedWildcards s e unused, r.finding.code = "E0005" := by
  intro r hr
  obtain ⟨rule, -, rfl⟩ := List.mem_map.1 hr
  rfl

theorem withCode_checkAttribute {code : String} (hcode : code ∈ Finding.ownCodes) (allowExtra : Bool)
    (h : Hierarchy) (typed : Attribute × Typing) :
    withCode code (checkAttribute ctx allowExtra scope h typed).1 =
      withCode code (checkName ctx.schema allowExtra typed) := by
  rw [checkAttribute_eq, withCode_append, withCode_ofValue (checkTyped_onValue typed) hcode,
    List.append_nil]

/-- Without the reports on names, the reports on values are left. -/
theorem filter_checkAttribute (ctx : Context) (scope : DescId) (allowExtra : Bool) (h : Hierarchy)
    (typed : Attribute × Typing) :
    checkTyped ctx scope h typed =
      ((checkAttribute ctx allowExtra scope h typed).1.filter (·.finding.code ∉ accountCodes),
        (checkAttribute ctx allowExtra scope h typed).2) := by
  have hname : (checkName ctx.schema allowExtra typed).filter (·.finding.code ∉ accountCodes) = [] :=
    List.filter_eq_nil_iff.2 fun r hr => by simp [code_checkName _ _ _ r hr]
  have hvalue : (checkTyped ctx scope h typed).1.filter (·.finding.code ∉ accountCodes) =
      (checkTyped ctx scope h typed).1 := by
    refine List.filter_eq_self.2 fun r hr => decide_eq_true fun hcode => ?_
    have hown : ∀ code ∈ accountCodes, code ∈ Finding.ownCodes := by decide
    have hother := (Finding.code_mem_iff r.finding).1 (hown _ hcode)
    rw [(checkTyped_onValue typed r hr).isOfValue] at hother
    cases hother
  rw [checkAttribute_eq, List.filter_append, hname, hvalue, List.nil_append]

/-- Elements that come to nothing may be left out before. -/
theorem flatMap_filter {α β : Type} {p : α → Bool} {f : α → List β} {items : List α}
    (h : ∀ a ∈ items, p a = false → f a = []) : (items.filter p).flatMap f = items.flatMap f := by
  induction items with
  | nil => rfl
  | cons a rest ih =>
    have hrest := ih fun b hb => h b (List.mem_cons_of_mem a hb)
    cases hp : p a with
    | true => rw [List.filter_cons_of_pos hp, List.flatMap_cons, List.flatMap_cons, hrest]
    | false =>
      rw [List.filter_cons_of_neg (by simp [hp]), List.flatMap_cons, h a List.mem_cons_self hp, hrest,
        List.nil_append]

/-- The checks of the names of attributes that use wildcards. -/
def usedNames (s : Schema) (t : ComplexType) (extra : List Attribute) : List Report :=
  (extra.zip t.wildcards).flatMap fun used => wildcardName s used.1 used.2.key

/-- The reports on attributes that find no wildcard left. -/
def leftNames (t : ComplexType) (extra : List Attribute) : List Report :=
  if t.flags.allowExtra then [] else
    (extra.drop t.wildcards.length).map fun a => .plain (.unknownAttribute a.name) a.nameSpan

/-- Names that use a wildcard come before those that find none left. -/
theorem flatMap_checkName (s : Schema) (t : ComplexType) (as : List Attribute) :
    (typeAttributes t t.wildcards as).1.flatMap (checkName s t.flags.allowExtra) =
      usedNames s t (as.filter (undefined t)) ++ leftNames t (as.filter (undefined t)) := by
  have hdeclared : ∀ typed ∈ (typeAttributes t t.wildcards as).1, undefined t typed.1 = false →
      checkName s t.flags.allowExtra typed = [] := by
    intro typed htyped hundefined
    obtain ⟨defined, hdefined⟩ := Option.isSome_iff_exists.1 (Option.isNone_eq_false_iff.1 hundefined)
    rw [checkName, declared_of_mem_typeAttributes htyped hdefined]
  rw [← flatMap_filter hdeclared, filter_typeAttributes, List.flatMap_append, List.flatMap_map,
    List.flatMap_map]
  refine congrArg (usedNames s t _ ++ ·) ?_
  unfold leftNames
  cases t.flags.allowExtra with
  | true => simp [checkName]
  | false => simp [checkName, List.map_eq_flatMap]

theorem code_usedNames (s : Schema) (t : ComplexType) (extra : List Attribute) :
    ∀ r ∈ usedNames s t extra, r.finding.code = "E0006" := by
  intro r hr
  obtain ⟨used, -, hr⟩ := List.mem_flatMap.1 hr
  exact code_wildcardName _ _ _ r hr

theorem code_leftNames (t : ComplexType) (extra : List Attribute) :
    ∀ r ∈ leftNames t extra, r.finding.code = "E0003" := by
  unfold leftNames
  intro r hr
  split at hr
  · cases hr
  · obtain ⟨a, -, rfl⟩ := List.mem_map.1 hr
    rfl

/-- All that is not about values. -/
theorem withCode_checkAttributes {code : String} (hcode : code ∈ Finding.ownCodes) (e : Element)
    (t : ComplexType) :
    let extra := e.attributes.filter (undefined t)
    withCode code (checkAttributes ctx scope h e t).1 =
      withCode code (usedNames ctx.schema t extra) ++ withCode code (leftNames t extra) ++
        withCode code (unusedWildcards ctx.schema e (t.wildcards.drop extra.length)) := by
  intro extra
  have hnames : withCode code (inTurn (checkAttribute ctx t.flags.allowExtra scope) h
      (typeAttributes t t.wildcards e.attributes).1).1 =
        withCode code (usedNames ctx.schema t extra ++ leftNames t extra) := by
    rw [← flatMap_checkName, withCode, filter_inTurn (withCode_checkAttribute hcode t.flags.allowExtra)]
    exact List.filter_flatMap.symm
  rw [checkAttributes, withCode_append, hnames, withCode_append, snd_typeAttributes]

/-- Every attribute and every wildcard is accounted for once. An attribute that the type defines has the
type of its definition. Of the others, the first uses the first wildcard, and so on: its value has the
type that the wildcard has for values, and its name is checked against the key of the wildcard. Those
that find no wildcard left are reported as unknown, unless the type allows more attributes, and the
wildcards that find no attribute are reported as missing. All other reports are those on values. -/
theorem checkAttributes_accounts (ctx : Context) (scope : DescId) (h : Hierarchy) (e : Element)
    (t : ComplexType) :
    let extra := e.attributes.filter (undefined t)
    let typed := (typeAttributes t t.wildcards e.attributes).1
    let reports := (checkAttributes ctx scope h e t).1
    let values := inTurn (checkTyped ctx scope) h typed
    (typed.map (·.1) = e.attributes ∧
      (∀ x ∈ typed, ∀ defined, t.attributes.get? x.1.name = some defined →
        x.2 = .declared defined.type) ∧
      typed.filter (fun x => undefined t x.1) =
        (extra.zip t.wildcards).map (fun used => (used.1, .wildcard used.2)) ++
          (extra.drop t.wildcards.length).map fun a => (a, .unknown)) ∧
    withCode "E0006" reports =
      ((extra.zip t.wildcards).flatMap fun used => wildcardName ctx.schema used.1 used.2.key) ∧
    withCode "E0003" reports =
      (if t.flags.allowExtra then [] else
        (extra.drop t.wildcards.length).map fun a => .plain (.unknownAttribute a.name) a.nameSpan) ∧
    withCode "E0005" reports =
      ((t.wildcards.drop extra.length).map fun rule =>
        .plain (.unusedWildcard ((ctx.schema.simpleTypes[rule.key]?.map (·.name)).getD "")) e.tagSpan) ∧
    reports.filter (·.finding.code ∉ accountCodes) = values.1 ∧
    (checkAttributes ctx scope h e t).2 = values.2 := by
  intro extra typed reports values
  have hused := code_usedNames ctx.schema t extra
  have hleft := code_leftNames t extra
  have hunused := code_unusedWildcards ctx.schema e (t.wildcards.drop extra.length)
  have hchecked := inTurn_filter (filter_checkAttribute ctx scope t.flags.allowExtra) h typed
  refine ⟨⟨map_fst_typeAttributes _ _ _, fun x hx _ => declared_of_mem_typeAttributes hx,
    filter_typeAttributes _ _⟩, ?_, ?_, ?_, ?_, ?_⟩
  · rw [withCode_checkAttributes (by decide), withCode_eq_self hused,
      withCode_eq_nil_of_code hleft (by decide), withCode_eq_nil_of_code hunused (by decide),
      List.append_nil, List.append_nil]
    rfl
  · rw [withCode_checkAttributes (by decide), withCode_eq_nil_of_code hused (by decide),
      withCode_eq_self hleft, withCode_eq_nil_of_code hunused (by decide), List.nil_append,
      List.append_nil]
    rfl
  · rw [withCode_checkAttributes (by decide), withCode_eq_nil_of_code hused (by decide),
      withCode_eq_nil_of_code hleft (by decide), withCode_eq_self hunused, List.nil_append,
      List.nil_append]
    rfl
  · have hrest : (unusedWildcards ctx.schema e (typeAttributes t t.wildcards e.attributes).2).filter
        (·.finding.code ∉ accountCodes) = [] :=
      List.filter_eq_nil_iff.2 fun r hr => by simp [code_unusedWildcards _ _ _ r hr, accountCodes]
    exact (List.filter_append _ _).trans
      ((congrArg₂ (· ++ ·) (congrArg Prod.fst hchecked).symm hrest).trans (List.append_nil _))
  · exact (congrArg Prod.snd hchecked).symm

end

end Check
end UILayout
