import Accessors.Plan.Composite
import Accessors.Proofs.Plan.Outcome
import Mathlib.Data.List.Forall2

/-! # Planning item by item

A composite type and a union are planned in the same way. The annotations of the type are looked at first, then the
items are planned in the order of declaration, and the first item that cannot be planned ends it. -/

namespace Accessors

namespace Logged
variable {ε α β : Type}

theorem outcome_andThen_of_error {x : Logged ε α} {e : ε} (h : x.outcome = .error e) (f : α → Logged ε β) :
    (x.andThen f).outcome = .error e := by
  simp only [andThen, h]

theorem outcome_andThen_eq_error {x : Logged ε α} {f : α → Logged ε β} {e : ε} : (x.andThen f).outcome = .error e ↔
    x.outcome = .error e ∨ ∃ a, x.outcome = .ok a ∧ (f a).outcome = .error e := by
  unfold andThen
  cases x.outcome <;> simp

theorem outcome_each_eq_ok {f : α → Logged ε β} {as : List α} {bs : List β} :
    (each f as).outcome = .ok bs ↔ List.Forall₂ (fun a b => (f a).outcome = .ok b) as bs := by
  induction as generalizing bs with
  | nil =>
    constructor
    · intro h
      cases h
      exact .nil
    · intro h
      cases h
      rfl
  | cons a as ih =>
    constructor
    · intro h
      obtain ⟨b, hb, h⟩ := outcome_andThen_eq_ok.mp h
      obtain ⟨bs', hbs, h⟩ := outcome_andThen_eq_ok.mp h
      cases h
      exact .cons hb (ih.mp hbs)
    · intro h
      obtain ⟨b, bs', hb, hbs, rfl⟩ := List.forall₂_cons_left_iff.mp h
      exact (outcome_andThen hb _).trans ((outcome_andThen (ih.mpr hbs) _).trans rfl)

/-- The items end with the defect of the first one that has any. -/
theorem outcome_each_eq_error {f : α → Logged ε β} {as : List α} {e : ε} : (each f as).outcome = .error e ↔
    ∃ before a after, as = before ++ a :: after ∧ (∀ a' ∈ before, ∃ b, (f a').outcome = .ok b) ∧
      (f a).outcome = .error e := by
  induction as with
  | nil =>
    refine iff_of_false nofun ?_
    rintro ⟨before, a, after, split, -⟩
    exact absurd split.symm (List.append_ne_nil_of_right_ne_nil before (List.cons_ne_nil a after))
  | cons a as ih =>
    constructor
    · intro h
      rcases outcome_andThen_eq_error.mp h with now | ⟨b, hb, later⟩
      · exact ⟨[], a, as, rfl, nofun, now⟩
      · rcases outcome_andThen_eq_error.mp later with further | ⟨bs, -, h⟩
        · obtain ⟨before, a', after, rfl, planned, failed⟩ := ih.mp further
          exact ⟨a :: before, a', after, rfl, List.forall_mem_cons.mpr ⟨⟨b, hb⟩, planned⟩, failed⟩
        · cases h
    · rintro ⟨_ | ⟨a', before⟩, a'', after, split, planned, failed⟩
      · cases split
        exact outcome_andThen_of_error failed _
      · cases split
        obtain ⟨⟨b, hb⟩, planned⟩ := List.forall_mem_cons.mp planned
        have further := ih.mpr ⟨before, a'', after, rfl, planned, failed⟩
        exact (outcome_andThen hb _).trans (outcome_andThen_of_error further _)

end Logged

/-! ### Annotations -/

theorem outcome_siteScope_eq_error {annotations : List Scope} {site : String} {d : Defect} :
    (siteScope annotations site).outcome = .error d ↔ 1 < annotations.length ∧ d = .manyAnnotations site annotations := by
  rcases annotations with _ | ⟨a, _ | ⟨b, rest⟩⟩
  · exact iff_of_false nofun fun h => absurd h.1 (by decide)
  · exact iff_of_false nofun fun h => absurd h.1 (by simp)
  · constructor
    · intro h
      cases h
      exact ⟨by simp, rfl⟩
    · rintro ⟨-, rfl⟩
      rfl

theorem outcome_siteScope_eq_ok {annotations : List Scope} {site : String} {s : Option Scope} :
    (siteScope annotations site).outcome = .ok s ↔ annotations.length ≤ 1 ∧ s = annotations.head? := by
  rcases annotations with _ | ⟨a, _ | ⟨b, rest⟩⟩
  · exact ⟨fun h => by cases h; exact ⟨by simp, rfl⟩, fun h => h.2 ▸ rfl⟩
  · exact ⟨fun h => by cases h; exact ⟨by simp, rfl⟩, fun h => h.2 ▸ rfl⟩
  · exact iff_of_false nofun fun h => absurd h.1 (by simp)

/-- The scope at a site inside a type: its own annotation goes before that of the type, and that before the default. -/
def Scope.inForce (own ofType : List Scope) (default : Scope) : Scope := own.head?.getD (ofType.head?.getD default)

theorem Scope.inForce_toList (own ofType : Option Scope) (default : Scope) :
    Scope.inForce own.toList ofType.toList default = own.getD (ofType.getD default) := by
  cases own <;> cases ofType <;> rfl

/-- Why the scope at a site inside a type is not settled. -/
inductive ScopeDefect (own ofType : List Scope) (site : String) : Defect → Prop where
  | ofType (several : 1 < ofType.length) :
      ScopeDefect own ofType site (.manyAnnotations ("the enclosing type of " ++ site) ofType)
  | own (single : ofType.length ≤ 1) (several : 1 < own.length) : ScopeDefect own ofType site (.manyAnnotations site own)

section
variable {own ofType : List Scope} {default : Scope} {site : String}

theorem outcome_resolveScope_eq_error {d : Defect} :
    (resolveScope own ofType default site).outcome = .error d ↔ ScopeDefect own ofType site d := by
  constructor
  · intro h
    rcases Logged.outcome_andThen_eq_error.mp h with ofType | ⟨_, single, h⟩
    · obtain ⟨several, rfl⟩ := outcome_siteScope_eq_error.mp ofType
      exact .ofType several
    · rcases Logged.outcome_andThen_eq_error.mp h with own | ⟨_, -, h⟩
      · obtain ⟨several, rfl⟩ := outcome_siteScope_eq_error.mp own
        exact .own (outcome_siteScope_eq_ok.mp single).1 several
      · cases h
  · intro h
    cases h with
    | ofType several => exact Logged.outcome_andThen_of_error (outcome_siteScope_eq_error.mpr ⟨several, rfl⟩) _
    | own single several =>
      exact (Logged.outcome_andThen (outcome_siteScope_eq_ok.mpr ⟨single, rfl⟩) _).trans
        (Logged.outcome_andThen_of_error (outcome_siteScope_eq_error.mpr ⟨several, rfl⟩) _)

theorem outcome_resolveScope_eq_ok {s : Scope} : (resolveScope own ofType default site).outcome = .ok s ↔
    own.length ≤ 1 ∧ ofType.length ≤ 1 ∧ s = Scope.inForce own ofType default := by
  constructor
  · intro h
    obtain ⟨_, ht, h⟩ := Logged.outcome_andThen_eq_ok.mp h
    obtain ⟨_, ho, h⟩ := Logged.outcome_andThen_eq_ok.mp h
    obtain ⟨ofType, rfl⟩ := outcome_siteScope_eq_ok.mp ht
    obtain ⟨own, rfl⟩ := outcome_siteScope_eq_ok.mp ho
    cases h
    exact ⟨own, ofType, rfl⟩
  · rintro ⟨own, ofType, rfl⟩
    exact (Logged.outcome_andThen (outcome_siteScope_eq_ok.mpr ⟨ofType, rfl⟩) _).trans
      (Logged.outcome_andThen (outcome_siteScope_eq_ok.mpr ⟨own, rfl⟩) _)

end

/-! ### Whole types -/

/-- A type is planned entirely, or with the first defect: that of its own annotations, or else that of its first item
    which cannot be planned. -/
structure PlannedInOrder {Item Plan Whole : Type} (planItem : Item → Planning Plan) (name : String)
    (scopes : List Scope) (items : List Item) (make : List Plan → Whole) (whole : Planning Whole) : Prop where
  succeeds : ∀ w, whole.outcome = .ok w ↔ scopes.length ≤ 1 ∧
    ∃ plans, List.Forall₂ (fun i p => (planItem i).outcome = .ok p) items plans ∧ w = make plans
  fails : ∀ d, whole.outcome = .error d ↔ 1 < scopes.length ∧ d = .manyAnnotations name scopes ∨
    scopes.length ≤ 1 ∧ ∃ before i after, items = before ++ i :: after ∧
      (∀ j ∈ before, ∃ p, (planItem j).outcome = .ok p) ∧ (planItem i).outcome = .error d

theorem plannedInOrder {Item Plan Whole : Type} (planItem : Item → Planning Plan) (name : String)
    (scopes : List Scope) (items : List Item) (make : List Plan → Whole) (l : Level) (r : List Plan → Record) :
    PlannedInOrder planItem name scopes items make
      ((siteScope scopes name).andThen fun _ => (Logged.each planItem items).andThen fun plans =>
        (Logged.note l (r plans)).andThen fun _ => .ok (make plans)) where
  succeeds w := by
    constructor
    · intro h
      obtain ⟨_, hs, h⟩ := Logged.outcome_andThen_eq_ok.mp h
      obtain ⟨plans, hp, h⟩ := Logged.outcome_andThen_eq_ok.mp h
      rw [Logged.outcome_note_andThen] at h
      cases h
      exact ⟨(outcome_siteScope_eq_ok.mp hs).1, plans, Logged.outcome_each_eq_ok.mp hp, rfl⟩
    · rintro ⟨single, plans, hp, rfl⟩
      exact (Logged.outcome_andThen (outcome_siteScope_eq_ok.mpr ⟨single, rfl⟩) _).trans
        ((Logged.outcome_andThen (Logged.outcome_each_eq_ok.mpr hp) _).trans (Logged.outcome_note_andThen l _ _))
  fails d := by
    constructor
    · intro h
      rcases Logged.outcome_andThen_eq_error.mp h with several | ⟨_, hs, h⟩
      · exact .inl (outcome_siteScope_eq_error.mp several)
      · rcases Logged.outcome_andThen_eq_error.mp h with failed | ⟨plans, -, h⟩
        · exact .inr ⟨(outcome_siteScope_eq_ok.mp hs).1, Logged.outcome_each_eq_error.mp failed⟩
        · rw [Logged.outcome_note_andThen] at h
          cases h
    · rintro (several | ⟨single, failed⟩)
      · exact Logged.outcome_andThen_of_error (outcome_siteScope_eq_error.mpr several) _
      · exact (Logged.outcome_andThen (outcome_siteScope_eq_ok.mpr ⟨single, rfl⟩) _).trans
          (Logged.outcome_andThen_of_error (Logged.outcome_each_eq_error.mpr failed) _)

theorem planComposite_inOrder (catalog : Catalog) (config : Config) (t : CompositeDecl) :
    PlannedInOrder (planMember catalog config t.name t.scopes) t.name t.scopes t.members (CompositePlan.mk t.name)
      (planComposite catalog config t) :=
  plannedInOrder _ t.name t.scopes t.members (CompositePlan.mk t.name) config.logLevel
    fun plans => plannedRecord plans.length "members" t.name

theorem planUnion_inOrder (catalog : Catalog) (config : Config) (t : UnionDecl) :
    PlannedInOrder (planCase catalog config t.name t.scopes) t.name t.scopes t.cases (UnionPlan.mk t.name)
      (planUnion catalog config t) :=
  plannedInOrder _ t.name t.scopes t.cases (UnionPlan.mk t.name) config.logLevel
    fun plans => plannedRecord plans.length "cases" t.name

end Accessors
