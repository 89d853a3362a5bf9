import Accessors.Proofs.Plan.Items

/-! # The first defect

An item of a type can be wrong in several ways at once, and so can several items. The defect that planning ends with
is the first one in a fixed order: the annotations of the type come first, then the items one after the other; in a
case its description, and in any item the annotations of the type again, its own, and its type at last. -/

namespace Accessors

/-- What is wrong with the description of a case. -/
inductive CaseDecl.Malformed (c : CaseDecl) : CaseFault → Prop where
  | fieldsWithoutPayload (style : c.style = .none) (some : c.arity ≠ 0 ∨ c.fields ≠ []) :
      Malformed c .fieldsWithoutPayload
  | notOneField (style : c.style = .single) (other : c.arity ≠ 1 ∨ c.fields.length ≠ 1) : Malformed c .notOneField
  | positionalArity (style : c.style = .positional) (other : c.arity = 0 ∨ c.arity.toNat ≠ c.fields.length) :
      Malformed c .positionalArity
  | labeledArity (style : c.style = .labeled) (other : c.arity = 0 ∨ c.arity.toNat ≠ c.fields.length) :
      Malformed c .labeledArity
  | namelessField (style : c.style = .labeled) (some : c.arity ≠ 0) (all : c.arity.toNat = c.fields.length)
      (nameless : ∃ f ∈ c.fields, f.name = "") : Malformed c .namelessField
  | noRecord (style : c.style = .labeled) (some : c.arity ≠ 0) (all : c.arity.toNat = c.fields.length)
      (named : ∀ f ∈ c.fields, f.name ≠ "") (none : c.record = "") : Malformed c .noRecord

section
variable (catalog : Catalog) (config : Config) (owner : String) (typeScopes : List Scope)

/-- Why a member cannot be planned. -/
inductive MemberDecl.FirstDefect (m : MemberDecl) : Defect → Prop where
  | scope {d : Defect} (unsettled : ScopeDefect m.scopes typeScopes (siteName owner m.name) d) : FirstDefect m d
  | type {d : Defect} (own : m.scopes.length ≤ 1) (ofType : typeScopes.length ≤ 1)
      (refused : (classify catalog config m.type).outcome = .error d) : FirstDefect m d

/-- Why a case cannot be planned. Only a single payload is classified. -/
inductive CaseDecl.FirstDefect (c : CaseDecl) : Defect → Prop where
  | description {fault : CaseFault} (malformed : c.Malformed fault) :
      FirstDefect c (.malformedCase (siteName owner c.name) fault)
  | scope {d : Defect} (wellFormed : ∀ fault, ¬c.Malformed fault)
      (unsettled : ScopeDefect c.scopes typeScopes (siteName owner c.name) d) : FirstDefect c d
  | payload {d : Defect} (wellFormed : ∀ fault, ¬c.Malformed fault) (own : c.scopes.length ≤ 1)
      (ofType : typeScopes.length ≤ 1) (single : c.style = .single)
      (refused : (classify catalog config c.payload).outcome = .error d) : FirstDefect c d

end

namespace CaseDecl
variable {c : CaseDecl} {site : String} {d : Defect}

theorem malformed_of_fault? {fault : CaseFault} (h : c.fault? = some fault) : c.Malformed fault := by
  unfold fault? at h
  cases style : c.style with
  | none =>
    simp only [style, Option.ite_none_right_eq_some, Option.some.injEq] at h
    obtain ⟨other, rfl⟩ := h
    exact .fieldsWithoutPayload style other
  | single =>
    simp only [style, Option.ite_none_right_eq_some, Option.some.injEq] at h
    obtain ⟨other, rfl⟩ := h
    exact .notOneField style other
  | positional =>
    simp only [style, Option.ite_none_right_eq_some, Option.some.injEq] at h
    obtain ⟨other, rfl⟩ := h
    exact .positionalArity style other
  | labeled =>
    simp only [style] at h
    split at h
    · rename_i other
      cases h
      exact .labeledArity style other
    · rename_i same
      obtain ⟨some, all⟩ := not_or.mp same
      have all := Decidable.not_not.mp all
      split at h
      · rename_i nameless
        cases h
        obtain ⟨f, hf, empty⟩ := List.any_eq_true.mp nameless
        exact .namelessField style some all ⟨f, hf, String.isEmpty_iff.mp empty⟩
      · rename_i named
        split at h
        · rename_i none
          cases h
          refine .noRecord style some all (fun f hf empty => named ?_) (String.isEmpty_iff.mp none)
          exact List.any_eq_true.mpr ⟨f, hf, String.isEmpty_iff.mpr empty⟩
        · cases h

theorem Malformed.fault? {fault : CaseFault} (h : c.Malformed fault) : c.fault? = some fault := by
  unfold CaseDecl.fault?
  cases h with
  | fieldsWithoutPayload style other => simp only [style, if_pos other]
  | notOneField style other => simp only [style, if_pos other]
  | positionalArity style other => simp only [style, if_pos other]
  | labeledArity style other => simp only [style, if_pos other]
  | namelessField style some all nameless =>
    obtain ⟨f, hf, empty⟩ := nameless
    have any : c.fields.any (·.name.isEmpty) = true := List.any_eq_true.mpr ⟨f, hf, String.isEmpty_iff.mpr empty⟩
    have same : ¬(c.arity = 0 ∨ c.arity.toNat ≠ c.fields.length) := not_or.mpr ⟨some, not_not.mpr all⟩
    simp only [style, if_neg same, any, ↓reduceIte]
  | noRecord style some all named none =>
    have any : ¬c.fields.any (·.name.isEmpty) = true := by
      intro any
      obtain ⟨f, hf, empty⟩ := List.any_eq_true.mp any
      exact named f hf (String.isEmpty_iff.mp empty)
    have same : ¬(c.arity = 0 ∨ c.arity.toNat ≠ c.fields.length) := not_or.mpr ⟨some, not_not.mpr all⟩
    simp only [style, if_neg same, if_neg any, String.isEmpty_iff.mpr none, ↓reduceIte]

theorem fault?_eq_some_iff {fault : CaseFault} : c.fault? = some fault ↔ c.Malformed fault :=
  ⟨malformed_of_fault?, Malformed.fault?⟩

theorem fault?_eq_none_iff : c.fault? = none ↔ ∀ fault, ¬c.Malformed fault := by
  simp only [← fault?_eq_some_iff, Option.eq_none_iff_forall_ne_some, ne_eq]

theorem outcome_check_eq_error : (c.check site).outcome = .error d ↔
    ∃ fault, c.Malformed fault ∧ d = .malformedCase site fault := by
  simp only [← fault?_eq_some_iff]
  unfold check
  cases c.fault? with
  | none => exact iff_of_false nofun nofun
  | some fault =>
    constructor
    · intro h
      cases h
      exact ⟨fault, rfl, rfl⟩
    · rintro ⟨_, h, rfl⟩
      cases h
      rfl

theorem outcome_check_wellFormed : (c.check site).outcome = .ok () ↔ ∀ fault, ¬c.Malformed fault :=
  outcome_check_eq_ok.trans fault?_eq_none_iff

theorem outcome_classifyPayload_eq_error {catalog : Catalog} {config : Config} :
    (c.classifyPayload catalog config).outcome = .error d ↔
      c.style = .single ∧ (classify catalog config c.payload).outcome = .error d := by
  unfold classifyPayload
  cases style : c.style with
  | none => exact iff_of_false nofun nofun
  | positional => exact iff_of_false nofun nofun
  | labeled => exact iff_of_false nofun nofun
  | single =>
    refine (Logged.outcome_andThen_eq_error.trans ?_).trans (and_iff_right rfl).symm
    refine or_iff_left ?_
    rintro ⟨_, -, h⟩
    cases h

end CaseDecl

section
variable {catalog : Catalog} {config : Config} {owner : String} {typeScopes : List Scope} {d : Defect}

theorem outcome_planMember_eq_error {m : MemberDecl} :
    (planMember catalog config owner typeScopes m).outcome = .error d ↔
    m.FirstDefect catalog config owner typeScopes d := by
  constructor
  · intro h
    rcases Logged.outcome_andThen_eq_error.mp h with unsettled | ⟨_, settled, h⟩
    · exact .scope (outcome_resolveScope_eq_error.mp unsettled)
    · obtain ⟨own, ofType, -⟩ := outcome_resolveScope_eq_ok.mp settled
      rcases Logged.outcome_andThen_eq_error.mp h with refused | ⟨_, -, h⟩
      · exact .type own ofType refused
      · rcases Logged.outcome_andThen_eq_error.mp h with h | ⟨_, -, h⟩ <;> cases h
  · intro h
    cases h with
    | scope unsettled => exact Logged.outcome_andThen_of_error (outcome_resolveScope_eq_error.mpr unsettled) _
    | type own ofType refused =>
      exact (Logged.outcome_andThen (outcome_resolveScope_eq_ok.mpr ⟨own, ofType, rfl⟩) _).trans
        (Logged.outcome_andThen_of_error refused _)

theorem outcome_planCase_eq_error {c : CaseDecl} : (planCase catalog config owner typeScopes c).outcome = .error d ↔
    c.FirstDefect catalog config owner typeScopes d := by
  constructor
  · intro h
    rcases Logged.outcome_andThen_eq_error.mp h with faulty | ⟨_, checked, h⟩
    · obtain ⟨fault, malformed, rfl⟩ := CaseDecl.outcome_check_eq_error.mp faulty
      exact .description malformed
    · have wellFormed := CaseDecl.outcome_check_wellFormed.mp checked
      rcases Logged.outcome_andThen_eq_error.mp h with unsettled | ⟨_, settled, h⟩
      · exact .scope wellFormed (outcome_resolveScope_eq_error.mp unsettled)
      · obtain ⟨own, ofType, -⟩ := outcome_resolveScope_eq_ok.mp settled
        rcases Logged.outcome_andThen_eq_error.mp h with refused | ⟨_, -, h⟩
        · obtain ⟨single, refused⟩ := CaseDecl.outcome_classifyPayload_eq_error.mp refused
          exact .payload wellFormed own ofType single refused
        · rcases Logged.outcome_andThen_eq_error.mp h with h | ⟨_, -, h⟩ <;> cases h
  · intro h
    cases h with
    | description malformed =>
      exact Logged.outcome_andThen_of_error (CaseDecl.outcome_check_eq_error.mpr ⟨_, malformed, rfl⟩) _
    | scope wellFormed unsettled =>
      exact (Logged.outcome_andThen (CaseDecl.outcome_check_wellFormed.mpr wellFormed) _).trans
        (Logged.outcome_andThen_of_error (outcome_resolveScope_eq_error.mpr unsettled) _)
    | payload wellFormed own ofType single refused =>
      have payload := CaseDecl.outcome_classifyPayload_eq_error.mpr ⟨single, refused⟩
      exact (Logged.outcome_andThen (CaseDecl.outcome_check_wellFormed.mpr wellFormed) _).trans
        ((Logged.outcome_andThen (outcome_resolveScope_eq_ok.mpr ⟨own, ofType, rfl⟩) _).trans
          (Logged.outcome_andThen_of_error payload _))

theorem scope_of_planMember {m : MemberDecl} {plan : MemberPlan}
    (h : (planMember catalog config owner typeScopes m).outcome = .ok plan) :
    plan.scope = Scope.inForce m.scopes typeScopes config.defaultScope := by
  obtain ⟨own, ofType, -, ho, ht, -, rfl⟩ := outcome_planMember_eq_ok.mp h
  rw [ho, ht, Scope.inForce_toList]

theorem scope_of_planCase {c : CaseDecl} {plan : CasePlan}
    (h : (planCase catalog config owner typeScopes c).outcome = .ok plan) :
    plan.scope = Scope.inForce c.scopes typeScopes config.defaultScope := by
  obtain ⟨own, ofType, -, -, ho, ht, -, rfl⟩ := outcome_planCase_eq_ok.mp h
  rw [ho, ht, Scope.inForce_toList]

end

/-- Planning succeeds entirely or ends with the first defect, for whole types as for single items, and what is planned
    is planned at the scope in force. -/
theorem planning_ends_with_first_defect (catalog : Catalog) (config : Config) :
    (∀ t : CompositeDecl, PlannedInOrder (planMember catalog config t.name t.scopes) t.name t.scopes t.members
      (CompositePlan.mk t.name) (planComposite catalog config t)) ∧
    (∀ t : UnionDecl, PlannedInOrder (planCase catalog config t.name t.scopes) t.name t.scopes t.cases
      (UnionPlan.mk t.name) (planUnion catalog config t)) ∧
    ∀ (owner : String) (typeScopes : List Scope),
      (∀ m : MemberDecl, (∀ d, (planMember catalog config owner typeScopes m).outcome = .error d ↔
          m.FirstDefect catalog config owner typeScopes d) ∧
        ∀ plan, (planMember catalog config owner typeScopes m).outcome = .ok plan →
          plan.scope = Scope.inForce m.scopes typeScopes config.defaultScope) ∧
      ∀ c : CaseDecl, (∀ d, (planCase catalog config owner typeScopes c).outcome = .error d ↔
          c.FirstDefect catalog config owner typeScopes d) ∧
        ∀ plan, (planCase catalog config owner typeScopes c).outcome = .ok plan →
          plan.scope = Scope.inForce c.scopes typeScopes config.defaultScope := by
  refine ⟨planComposite_inOrder catalog config, planUnion_inOrder catalog config, fun owner typeScopes => ⟨?_, ?_⟩⟩
  · intro m
    exact ⟨fun d => outcome_planMember_eq_error, fun plan => scope_of_planMember⟩
  · intro c
    exact ⟨fun d => outcome_planCase_eq_error, fun plan => scope_of_planCase⟩

def labelCase : CaseDecl := ⟨"label", 1, .single, [⟨"", .node "std::optional" [.atom "int"]⟩], [.owned], ""⟩

/-- The second case of this union has a field too few and an annotation too many, the third an annotation too many. -/
def faultyShape : UnionDecl :=
  ⟨"w::Shape", [.readable],
    [labelCase,
      ⟨"slots", 1, .single, [], [.all, .owned], ""⟩,
      ⟨"code", 1, .single, [⟨"", .atom "int"⟩], [.all, .all], ""⟩]⟩

theorem planning_ends_with_first_defect_slots :
    (planUnion .standard {} faultyShape).outcome = .error (.malformedCase "w::Shape::slots" .notOneField) ∧
    ∃ plan, (planCase .standard {} "w::Shape" [.readable] labelCase).outcome = .ok plan ∧ plan.scope = .owned := by
  obtain ⟨-, unions, items⟩ := planning_ends_with_first_defect .standard {}
  obtain ⟨-, cases⟩ := items "w::Shape" [.readable]
  constructor
  · refine ((unions faultyShape).fails _).mpr (.inr ⟨by decide, _ :: [], _, _, rfl, ?_, ?_⟩)
    · rintro c hc
      cases List.mem_singleton.mp hc
      exact ⟨_, rfl⟩
    · exact ((cases _).1 _).mpr (.description (.notOneField rfl (.inr (by decide))))
  · exact ⟨_, rfl, (cases labelCase).2 _ rfl⟩

end Accessors
