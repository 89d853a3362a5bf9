import Accessors.Proofs.Plan.Outcome
import Mathlib.Data.List.Perm.Basic

/-! # Scopes share out the constructors

A scope is nothing but a filter of flavors. Of the constructors that an item gets at scope `all`, an annotation keeps
those whose flavor is in its scope, and changes nothing about them or about the classification. The three narrow
scopes are the three families of flavors, so they share the constructors out among themselves. -/

namespace Accessors

/-- What is planned for an item at the four scopes. -/
structure Scope.SharesOut (planned : Scope → List Constructor) : Prop where
  filtered : ∀ s, planned s = (planned .all).filter fun k => s.filter.contains k.flavor
  once : ∀ k ∈ planned .all, ∃! s, s ≠ .all ∧ k ∈ planned s
  together : (planned .all).Perm (planned .readable ++ planned .writable ++ planned .owned)

/-- The scope that keeps a family and nothing else. -/
def Family.scope : Family → Scope
  | read => .readable
  | write => .writable
  | own => .owned

namespace Scope
variable {s : Scope} {f : Flavor}

theorem keeps_all (f : Flavor) : all.keeps f = true := List.contains_iff_mem.mpr f.mem_all

theorem keeps_iff (narrow : s ≠ all) : s.keeps f = true ↔ s = f.family.scope := by
  cases s with
  | all => exact absurd rfl narrow
  | readable => cases f <;> decide
  | writable => cases f <;> decide
  | owned => cases f <;> decide

theorem scope_ne_all (f : Flavor) : f.family.scope ≠ all := by
  cases f <;> decide

theorem sharesOut_of_filtered {planned : Scope → List Constructor}
    (h : ∀ s, planned s = (planned .all).filter fun k => s.keeps k.flavor) : SharesOut planned where
  filtered := h
  once k hk := by
    refine ⟨k.flavor.family.scope, ⟨scope_ne_all _, ?_⟩, ?_⟩
    · rw [h]
      exact List.mem_filter.mpr ⟨hk, (keeps_iff (scope_ne_all _)).mpr rfl⟩
    · rintro s ⟨narrow, kept⟩
      rw [h] at kept
      exact (keeps_iff narrow).mp (List.mem_filter.mp kept).2
  together := by
    rw [h .readable, h .writable, h .owned, List.perm_iff_count]
    intro k
    have share : ∀ s, s ≠ all → ((planned .all).filter fun k => s.keeps k.flavor).count k =
        if s = k.flavor.family.scope then (planned .all).count k else 0 := by
      intro s narrow
      by_cases hs : s = k.flavor.family.scope
      · rw [if_pos hs]
        exact List.count_filter ((keeps_iff narrow).mpr hs)
      · rw [if_neg hs, List.count_eq_zero]
        exact fun kept => hs ((keeps_iff narrow).mp (List.mem_filter.mp kept).2)
    rw [List.count_append, List.count_append, share .readable nofun, share .writable nofun, share .owned nofun]
    cases k.flavor.family <;> simp [Family.scope]

end Scope

/-! ### Every group of constructors is filtered -/

section
variable (s : Scope) (base : String)

/-- What a scope keeps of the constructors made of some items. -/
theorem filter_made {α : Type} (offered : α → Bool) (make : α → Constructor) (items : List α) :
    ((items.filter fun a => offered a && Scope.all.keeps (make a).flavor).map make).filter
        (fun k => s.keeps k.flavor) =
      (items.filter fun a => offered a && s.keeps (make a).flavor).map make := by
  rw [List.filter_map, List.filter_filter]
  refine congrArg (List.map make) (List.filter_congr fun a _ => ?_)
  rw [Function.comp_apply, Scope.keeps_all, Bool.and_true, Bool.and_comm]

theorem filter_plannedWhole (offered : FlavorSet) (value : Flavor → TypeExpr) (fs : List Flavor) :
    (plannedWhole base .all offered value fs).filter (fun k => s.keeps k.flavor) =
      plannedWhole base s offered value fs :=
  filter_made s offered.contains (fun f => ⟨constructorName base f, f, .none, value f⟩) fs

theorem filter_plannedAt (c : Classification) :
    (plannedAt base .all c).filter (fun k => s.keeps k.flavor) = plannedAt base s c :=
  filter_made s c.capabilities.atPosition.contains
    (fun f => ⟨constructorName base f true, f, c.capabilities.position, c.inner⟩) _

theorem filter_memberConstructors (type : TypeExpr) (c : Classification) :
    (memberConstructors base type .all c).filter (fun k => s.keeps k.flavor) = memberConstructors base type s c := by
  unfold memberConstructors
  rw [List.filter_append, filter_plannedWhole, filter_plannedAt]

namespace CaseDecl

theorem filter_fieldConstructors (type : TypeExpr) :
    (fieldConstructors .all base type).filter (fun k => s.keeps k.flavor) = fieldConstructors s base type :=
  filter_made s (fun _ => true) (fun fs : Flavor × String => ⟨base ++ fs.2, fs.1, .none, type⟩) _

theorem filter_constructors (d : CaseDecl) (payload : Option Classification) :
    (d.constructors .all payload).filter (fun k => s.keeps k.flavor) = d.constructors s payload := by
  have fields : (d.allFieldConstructors .all).filter (fun k => s.keeps k.flavor) = d.allFieldConstructors s := by
    unfold allFieldConstructors
    rw [List.filter_flatMap]
    exact congrArg (List.flatMap · d.calledFields) (funext fun f => filter_fieldConstructors s _ f.2)
  unfold constructors
  rw [List.filter_append, List.filter_append, fields, wholeConstructors, filter_plannedWhole]
  cases payload with
  | none => rfl
  | some p =>
    simp only [unwrapConstructors, List.filter_append, filter_plannedWhole, filter_plannedAt]
    rfl

end CaseDecl
end

/-- Whatever annotation an item is given, and given no other, it is planned, and its scopes share out what it gets at
    scope `all`. -/
theorem scopes_share_out (catalog : Catalog) (config : Config) (owner : String) (typeScopes : List Scope) :
    (∀ (m : MemberDecl) (plan : MemberPlan), (planMember catalog config owner typeScopes m).outcome = .ok plan →
      ∃ plans : Scope → MemberPlan,
        (∀ s, (planMember catalog config owner typeScopes { m with scopes := [s] }).outcome = .ok (plans s) ∧
          (plans s).scope = s ∧ (plans s).shape = plan.shape) ∧
        Scope.SharesOut fun s => (plans s).constructors) ∧
    ∀ (d : CaseDecl) (plan : CasePlan), (planCase catalog config owner typeScopes d).outcome = .ok plan →
      ∃ plans : Scope → CasePlan,
        (∀ s, (planCase catalog config owner typeScopes { d with scopes := [s] }).outcome = .ok (plans s) ∧
          (plans s).scope = s ∧ (plans s).payload = plan.payload) ∧
        Scope.SharesOut fun s => (plans s).constructors := by
  constructor
  · intro m plan h
    obtain ⟨own, ofType, c, -, ht, hc, rfl⟩ := outcome_planMember_eq_ok.mp h
    refine ⟨fun s => ⟨m.name, s, c, memberConstructors m.name m.type s c⟩, fun s => ⟨?_, rfl, rfl⟩, ?_⟩
    · exact outcome_planMember_eq_ok.mpr ⟨some s, ofType, c, rfl, ht, hc, rfl⟩
    · exact Scope.sharesOut_of_filtered fun s => (filter_memberConstructors s m.name m.type c).symm
  · intro d plan h
    obtain ⟨own, ofType, payload, well_formed, -, ht, hp, rfl⟩ := outcome_planCase_eq_ok.mp h
    refine ⟨fun s => ⟨d.name, s, d.style, payload, d.constructors s payload⟩, fun s => ⟨?_, rfl, rfl⟩, ?_⟩
    · exact outcome_planCase_eq_ok.mpr ⟨some s, ofType, payload, well_formed, rfl, ht, hp, rfl⟩
    · exact Scope.sharesOut_of_filtered fun s => (d.filter_constructors s payload).symm

def circleCase : CaseDecl :=
  ⟨"circle", 2, .labeled, [⟨"radius", .atom "int"⟩, ⟨"color", .atom "int"⟩], [], "w::Circle"⟩

/-- A vector of an owned member, and the fields of a record in a union that is otherwise written. -/
theorem scopes_share_out_circle :
    (∃ plan, (planMember .standard {} "w::Shop" []
        ⟨"slots", .node "std::vector" [.atom "int"], [.owned]⟩).outcome = .ok plan ∧
      ∃ plans : Scope → MemberPlan,
        (∀ s, (planMember .standard {} "w::Shop" [] ⟨"slots", .node "std::vector" [.atom "int"], [s]⟩).outcome =
          .ok (plans s) ∧ (plans s).scope = s ∧ (plans s).shape = plan.shape) ∧
        Scope.SharesOut fun s => (plans s).constructors) ∧
    ∃ plan, (planCase .standard {} "w::Shape" [.writable] circleCase).outcome = .ok plan ∧
      ∃ plans : Scope → CasePlan,
        (∀ s, (planCase .standard {} "w::Shape" [.writable] { circleCase with scopes := [s] }).outcome =
          .ok (plans s) ∧ (plans s).scope = s ∧ (plans s).payload = plan.payload) ∧
        Scope.SharesOut fun s => (plans s).constructors :=
  ⟨⟨_, rfl, (scopes_share_out .standard {} "w::Shop" []).1
      ⟨"slots", .node "std::vector" [.atom "int"], [.owned]⟩ _ rfl⟩,
    ⟨_, rfl, (scopes_share_out .standard {} "w::Shape" [.writable]).2 circleCase _ rfl⟩⟩

end Accessors
