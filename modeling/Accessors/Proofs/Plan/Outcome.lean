import Accessors.Plan.Case
import Accessors.Plan.Member
import Accessors.Proofs.Classification.Described

/-! # What planning an item comes to

An item is planned exactly if neither its site nor its type's site has more than one annotation and its type or
payload is classified; for a case, if it is well formed besides. The owner's name only shows in complaints. -/

namespace Accessors

/-- At most one annotation on either site settles the scope. -/
theorem outcome_resolveScope (own ofType : Option Scope) (default : Scope) (site : String) :
    (resolveScope own.toList ofType.toList default site).outcome = .ok (own.getD (ofType.getD default)) := by
  cases own <;> cases ofType <;> rfl

theorem annotations_of_siteScope {annotations : List Scope} {site : String} {s : Option Scope}
    (h : (siteScope annotations site).outcome = .ok s) : annotations = s.toList := by
  rcases annotations with _ | ⟨a, _ | ⟨b, rest⟩⟩
  · cases h
    rfl
  · cases h
    rfl
  · cases h

theorem annotations_of_resolveScope {own ofType : List Scope} {default s : Scope} {site : String}
    (h : (resolveScope own ofType default site).outcome = .ok s) :
    ∃ a b : Option Scope, own = a.toList ∧ ofType = b.toList ∧ s = a.getD (b.getD default) := by
  obtain ⟨b, hb, h⟩ := Logged.outcome_andThen_eq_ok.mp h
  obtain ⟨a, ha, h⟩ := Logged.outcome_andThen_eq_ok.mp h
  cases h
  exact ⟨a, b, annotations_of_siteScope ha, annotations_of_siteScope hb, rfl⟩

section
variable {catalog : Catalog} {config : Config} {owner : String} {typeScopes : List Scope}

theorem outcome_planMember_eq_ok {m : MemberDecl} {plan : MemberPlan} :
    (planMember catalog config owner typeScopes m).outcome = .ok plan ↔
      ∃ (own ofType : Option Scope) (c : Classification), m.scopes = own.toList ∧ typeScopes = ofType.toList ∧
        (classify catalog config m.type).outcome = .ok c ∧
        plan = ⟨m.name, own.getD (ofType.getD config.defaultScope), c,
          memberConstructors m.name m.type (own.getD (ofType.getD config.defaultScope)) c⟩ := by
  constructor
  · intro h
    obtain ⟨scope, hs, h⟩ := Logged.outcome_andThen_eq_ok.mp h
    obtain ⟨c, hc, h⟩ := Logged.outcome_andThen_eq_ok.mp h
    obtain ⟨_, -, h⟩ := Logged.outcome_andThen_eq_ok.mp h
    cases h
    obtain ⟨own, ofType, ho, ht, rfl⟩ := annotations_of_resolveScope hs
    exact ⟨own, ofType, c, ho, ht, hc, rfl⟩
  · rintro ⟨own, ofType, c, ho, ht, hc, rfl⟩
    unfold planMember
    rw [ho, ht]
    exact (Logged.outcome_andThen (outcome_resolveScope own ofType _ _) _).trans
      ((Logged.outcome_andThen hc _).trans (Logged.outcome_andThen rfl _))

theorem outcome_check_eq_ok {d : CaseDecl} {site : String} : (d.check site).outcome = .ok () ↔ d.fault? = none := by
  unfold CaseDecl.check
  cases d.fault? with
  | none => exact iff_of_true rfl rfl
  | some fault => exact iff_of_false nofun nofun

theorem outcome_planCase_eq_ok {d : CaseDecl} {plan : CasePlan} :
    (planCase catalog config owner typeScopes d).outcome = .ok plan ↔
      ∃ (own ofType : Option Scope) (payload : Option Classification), d.fault? = none ∧ d.scopes = own.toList ∧
        typeScopes = ofType.toList ∧ (d.classifyPayload catalog config).outcome = .ok payload ∧
        plan = ⟨d.name, own.getD (ofType.getD config.defaultScope), d.style, payload,
          d.constructors (own.getD (ofType.getD config.defaultScope)) payload⟩ := by
  constructor
  · intro h
    obtain ⟨_, checked, h⟩ := Logged.outcome_andThen_eq_ok.mp h
    obtain ⟨scope, hs, h⟩ := Logged.outcome_andThen_eq_ok.mp h
    obtain ⟨payload, hp, h⟩ := Logged.outcome_andThen_eq_ok.mp h
    obtain ⟨_, -, h⟩ := Logged.outcome_andThen_eq_ok.mp h
    cases h
    obtain ⟨own, ofType, ho, ht, rfl⟩ := annotations_of_resolveScope hs
    exact ⟨own, ofType, payload, outcome_check_eq_ok.mp checked, ho, ht, hp, rfl⟩
  · rintro ⟨own, ofType, payload, well_formed, ho, ht, hp, rfl⟩
    unfold planCase
    rw [ho, ht]
    exact (Logged.outcome_andThen (outcome_check_eq_ok.mpr well_formed) _).trans
      ((Logged.outcome_andThen (outcome_resolveScope own ofType _ _) _).trans
        ((Logged.outcome_andThen hp _).trans (Logged.outcome_andThen rfl _)))

end
end Accessors
