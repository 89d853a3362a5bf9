import Accessors.Member
import Accessors.Plan.Member
import Accessors.Proofs.Classification.Described
import Mathlib.Data.List.Forall2

/-! # Planned and declared constructors

The planner reads the written form of a member's type, while the accessors of the member are declared by
its wrappers. Both come to the same constructors: the same flavors in the same order, the same value
types, and the same kind of position, whose key is the one the plan records. -/

namespace Accessors

/-! ### What a leg shows -/

namespace Leg
variable {R : Ty}

/-- The type of the value a leg reaches. -/
def valueType : Leg R → Ty
  | @fixed _ V _ => V
  | @positional _ V _ _ => V

/-- Every accessor of a leg is of the flavor. -/
def HasFlavor (f : Flavor) : Leg R → Prop
  | fixed e => e.flavor = f
  | positional _ e => ∀ pos, (e pos).flavor = f

/-- The position a leg takes, if it takes one. -/
def position? : Leg R → Option PositionType
  | fixed _ => none
  | positional t _ => some t

end Leg

/-- A kind of parameter stands for what an accessor takes: nothing, an index, or the recorded key. -/
def PositionKind.StandsFor (key : Option TypeExpr) : PositionKind → Option PositionType → Prop
  | none, .none => True
  | index, some .index => True
  | .key, some (.key k) => key = some k
  | element, some (.key k) => key = some k
  | _, _ => False

/-- A constructor of a plan that records `key` describes an accessor. -/
structure Constructor.Describes {R : Ty} (key : Option TypeExpr) (c : Constructor) (l : Leg R) : Prop where
  flavor : l.HasFlavor c.flavor
  value : c.value = l.valueType.describe
  parameter : c.parameter.StandsFor key l.position?

/-! ### What is declared -/

/-- What a container calls the position of an element: the place in a sequence, the key of a mapping, or
    the element of a set itself. -/
def Wrapper.positionKind : Wrapper → PositionKind
  | vector | deque | linkedList => .index
  | hashMap _ | orderedMap _ => .key
  | hashSet | orderedSet => .element
  | _ => .none

/-- The kind of position of a type: its own, or else that of the payload it merges with. -/
def Ty.positionKind : Ty → PositionKind
  | plain _ => .none
  | wrap w t =>
    if w.positional then w.positionKind
    else
      match (wrap w t).mergedPair? with
      | some (_, v) => v.positionKind
      | none => .none

namespace Wrapper
variable (w : Wrapper) (payload : TypeExpr)

theorem positionKind_standsFor (rest : Option TypeExpr) :
    w.positionKind.StandsFor ((w.key? payload).or rest) (w.position? payload) := by
  cases w <;> first | exact trivial | exact rfl

theorem key?_of_not_positional (h : ¬w.positional = true) : w.key? payload = none := by
  cases w <;> first | rfl | exact absurd rfl h

end Wrapper

namespace Member

/-- The flavors without a parameter in the order of the constructors. -/
def wholeOrder : List Flavor :=
  [.readable, .writable, .owned, .failableReadable, .failableWritable, .failableOwned]

/-- The flavors with a position in the order of the constructors. -/
def positionOrder : List Flavor := [.failableReadable, .failableWritable]

/-- The declared accessors in the order of the constructors. -/
def declared (m : Member) (R : Ty) : List (Leg R) :=
  wholeOrder.filterMap (m.accessor? R) ++ positionOrder.filterMap (m.accessorAt? R)

/-- The constructors of the declared accessors: total ones reach the member itself, failable ones the
    unwrapped value, and those with a position an element. -/
def constructors (m : Member) : List Constructor :=
  ((wholeOrder.filter m.offers).map fun f =>
      ⟨constructorName m.name f, f, .none,
        if f.total then m.type.describe else m.type.unwrapped.describe⟩)
    ++ (positionOrder.filter m.offersAt).map fun f =>
      ⟨constructorName m.name f true, f, m.type.positionKind, m.type.element.describe⟩

end Member

/-- A plan has the constructors of a member's declared accessors. -/
structure MemberPlan.Declares (plan : MemberPlan) (m : Member) (R : Ty) : Prop where
  scope : plan.scope = m.scope
  constructors : plan.constructors = m.constructors
  accessors : List.Forall₂ (Constructor.Describes plan.shape.key) plan.constructors (m.declared R)
  flavors : FlavorSet.ofList (plan.constructors.map (·.flavor)) = m.emitted

/-! ### The table of flavors -/

namespace Shape
variable (s : Shape) (sharing : Sharing) {f : Flavor}

theorem mem_wholeOrder_of_offered (h : (s.capabilities sharing).offered.contains f = true) :
    f ∈ Member.wholeOrder := by
  cases f <;> first
    | decide
    | cases s <;> cases sharing <;> cases h

theorem not_standsFor_none (key : Option TypeExpr)
    (h : (s.capabilities sharing).atPosition.contains f = true) :
    ¬(s.capabilities sharing).position.StandsFor key none := by
  cases s <;> first | exact id | cases h

theorem mem_positionOrder_of_atPosition (h : (s.capabilities sharing).atPosition.contains f = true) :
    f ∈ Member.positionOrder := by
  cases f <;> first
    | decide
    | cases s <;> cases h

end Shape

/-! ### Types and their classification -/

namespace Ty
variable (t : Ty)

/-- The step into a type leads where its classification says. -/
theorem unwrapped_classification :
    t.classification.unwrapped t.describe = t.unwrapped.describe := by
  unfold Classification.unwrapped unwrapped
  cases t with
  | plain n => simp [classification, traits, describe, Shape.sharedGuard]
  | wrap w t =>
    have hplain : (wrap w t).traits.shape ≠ .plain := by
      intro h
      obtain ⟨n, hn⟩ := traits_shape_eq_plain.mp h
      cases hn
    simp only [classification, hplain, ↓reduceIte, payload?, Option.getD_some]
    by_cases hguard : (wrap w t).traits.shape.sharedGuard = true
    · simp only [hguard, ↓reduceIte]
      -- Only a handle guards, and its payload is its first argument.
      rcases layers w t with ⟨pair, -, whole⟩ | ⟨-, whole⟩ <;> rw [whole] at hguard
      · have handle := Wrapper.sharing_of_sharedGuard pair hguard
        cases w <;> first | rfl | exact absurd rfl handle
      · rw [w.not_sharedGuard_shape] at hguard
        cases hguard
    · simp only [hguard, Bool.false_eq_true, ↓reduceIte]

theorem capabilities_position : t.capabilities.position = t.positionKind := by
  cases t with
  | plain n => rfl
  | wrap w t =>
    rcases layers w t with @⟨v, u, k, pair, -, whole⟩ | ⟨-, whole⟩
    · simp only [capabilities, positionKind, mergedPair?_of_merged (congrArg Traits.merged whole), whole]
      cases w <;> cases v <;> simp [Shape.combine, Wrapper.shape] at pair <;> subst pair <;> rfl
    · simp only [capabilities, positionKind, mergedPair?_of_not_merged (congrArg Traits.merged whole), whole]
      cases w <;> rfl

/-- What a type takes as a position is what its kind of position stands for, with the recorded key. -/
theorem positionKind_standsFor : t.positionKind.StandsFor t.key? t.position? := by
  cases t with
  | plain n => exact trivial
  | wrap w t =>
    simp only [positionKind, position?, key?, Option.orElse_eq_orElse, Option.orElse_eq_or]
    by_cases hw : w.positional = true
    · rw [if_pos hw, if_pos hw]
      exact w.positionKind_standsFor _ _
    · rw [if_neg hw, if_neg hw]
      rcases layers w t with @⟨v, u, k, -, -, whole⟩ | ⟨-, whole⟩
      · -- The position is the inner wrapper's, and so is the key.
        simp only [mergedPair?_of_merged (congrArg Traits.merged whole), key?, whole,
          w.key?_of_not_positional _ hw, ↓reduceIte, Option.orElse_eq_orElse, Option.orElse_eq_or,
          Option.none_or]
        exact v.positionKind_standsFor _ _
      · simp only [mergedPair?_of_not_merged (congrArg Traits.merged whole)]
        exact trivial

theorem position?_isSome {f : Flavor} (h : t.capabilities.atPosition.contains f = true) :
    t.position?.isSome = true := by
  have stands := t.positionKind_standsFor
  rw [← t.capabilities_position] at stands
  cases hp : t.position? with
  | some q => rfl
  | none =>
    rw [hp] at stands
    exact absurd stands (Shape.not_standsFor_none _ _ _ h)

end Ty

/-! ### Plans -/

/-- What is kept of a list is matched one by one by what a partial function makes of it, if the function is
    defined exactly on what is kept. -/
theorem forall₂_filter_map {α β γ : Type} {rel : β → γ → Prop} {keep : α → Bool} {g : α → β} {f : α → Option γ}
    {l : List α} (kept : ∀ a ∈ l, keep a = true → ∃ c, f a = some c ∧ rel (g a) c)
    (left : ∀ a, keep a = false → f a = none) :
    List.Forall₂ rel ((l.filter keep).map g) (l.filterMap f) := by
  induction l with
  | nil => exact .nil
  | cons a l ih =>
    have rest := ih fun b hb => kept b (.tail _ hb)
    cases ha : keep a with
    | false =>
      rw [List.filter_cons_of_neg (by simp [ha]), List.filterMap_cons_none (left a ha)]
      exact rest
    | true =>
      obtain ⟨c, hc, hrel⟩ := kept a (.head _) ha
      rw [List.filter_cons_of_pos ha, List.filterMap_cons_some hc, List.map_cons]
      exact .cons hrel rest

namespace Member
variable (m : Member) (R : Ty)

theorem describes_accessor {f : Flavor} (key : Option TypeExpr) (listed : f ∈ wholeOrder)
    (offered : m.offers f = true) :
    ∃ l, m.accessor? R f = some l ∧ Constructor.Describes key
      ⟨constructorName m.name f, f, .none,
        if f.total then m.type.describe else m.type.unwrapped.describe⟩ l := by
  unfold accessor?
  rw [if_pos offered]
  cases f <;> first
    | exact ⟨_, rfl, rfl, rfl, trivial⟩
    | exact absurd listed (by decide)

theorem describes_accessorAt {f : Flavor} (listed : f ∈ positionOrder) (offered : m.offersAt f = true) :
    ∃ l, m.accessorAt? R f = some l ∧ Constructor.Describes m.type.key?
      ⟨constructorName m.name f true, f, m.type.positionKind, m.type.element.describe⟩ l := by
  have hp : m.type.position?.isSome = true :=
    m.type.position?_isSome (Bool.and_eq_true_iff.mp offered).1
  obtain ⟨q, hq⟩ := Option.isSome_iff_exists.mp hp
  have stands := m.type.positionKind_standsFor
  rw [hq] at stands
  unfold accessorAt?
  rw [if_pos offered, hq]
  cases f <;> first
    | exact ⟨_, rfl, fun _ => rfl, rfl, stands⟩
    | exact absurd listed (by decide)

theorem describes_declared :
    List.Forall₂ (Constructor.Describes m.type.key?) m.constructors (m.declared R) := by
  refine List.rel_append (forall₂_filter_map ?_ ?_) (forall₂_filter_map ?_ ?_)
  · exact fun f listed offered => m.describes_accessor R _ listed offered
  · intro f hf
    unfold accessor?
    rw [hf, if_neg Bool.false_ne_true]
  · exact fun f listed offered => m.describes_accessorAt R listed offered
  · intro f hf
    unfold accessorAt?
    rw [hf, if_neg Bool.false_ne_true]

theorem flavors_constructors : FlavorSet.ofList (m.constructors.map (·.flavor)) = m.emitted := by
  have flavors : m.constructors.map (·.flavor) =
      wholeOrder.filter m.offers ++ positionOrder.filter m.offersAt := by
    simp [constructors, Function.comp_def]
  rw [flavors]
  refine FlavorSet.ext fun f => Bool.eq_iff_iff.mpr ?_
  simp only [FlavorSet.contains_ofList, List.contains_iff_mem, List.mem_append, List.mem_filter, emitted,
    FlavorSet.contains_inter, FlavorSet.contains_union, Bool.and_eq_true, Bool.or_eq_true, offers, offersAt,
    Scope.keeps]
  constructor
  · rintro (⟨-, offered, keeps⟩ | ⟨-, offered, keeps⟩)
    · exact ⟨.inl offered, keeps⟩
    · exact ⟨.inr offered, keeps⟩
  · rintro ⟨offered | offered, keeps⟩
    · exact .inl ⟨Shape.mem_wholeOrder_of_offered _ _ offered, offered, keeps⟩
    · exact .inr ⟨Shape.mem_positionOrder_of_atPosition _ _ offered, offered, keeps⟩

theorem memberConstructors_classification :
    memberConstructors m.name m.type.describe m.scope m.type.classification = m.constructors := by
  have value : ∀ f, m.type.classification.memberValue m.type.describe f =
      if f.total then m.type.describe else m.type.unwrapped.describe := by
    intro f
    rw [Classification.memberValue, m.type.unwrapped_classification]
  have position : m.type.classification.capabilities.position = m.type.positionKind :=
    m.type.capabilities_position
  simp only [memberConstructors, plannedWhole, plannedAt, constructors, value, position]
  rfl

/-- The planner plans exactly the declared constructors, for every type and every scope in force. -/
theorem planMember_declares (owner : String) (ofType own : List Scope)
    (hcore : Catalog.standard.find? m.type.core = none)
    (hscope : (resolveScope own ofType .all (siteName owner m.name)).outcome = .ok m.scope) :
    ∃ plan, (planMember .standard {} owner ofType ⟨m.name, m.type.describe, own⟩).outcome = .ok plan ∧
      plan.Declares m R := by
  refine ⟨⟨m.name, m.scope, m.type.classification, m.constructors⟩, ?_, ?_⟩
  · have hclass : (classify .standard {} m.type.describe).outcome = .ok m.type.classification :=
      Ty.outcome_classify hcore
    simp only [planMember]
    rw [Logged.outcome_andThen hscope, Logged.outcome_andThen hclass, Logged.outcome_andThen rfl,
      m.memberConstructors_classification]
    rfl
  · exact ⟨rfl, rfl, m.describes_declared R, m.flavors_constructors⟩

/-- A mapping of optional values, whose entries at a key are planned with it. -/
theorem planMember_declares_stock :
    Catalog.standard.find? (Ty.wrap (.hashMap (.atom "std::string")) (.wrap .optional (.plain "int"))).core =
      none ∧
    (resolveScope [.readable] [] .all (siteName "w::Shop" "stock")).outcome = .ok .readable ∧
    ∃ plan, (planMember .standard {} "w::Shop" [] ⟨"stock",
        (Ty.wrap (.hashMap (.atom "std::string")) (.wrap .optional (.plain "int"))).describe,
        [.readable]⟩).outcome = .ok plan ∧
      plan.Declares
        ⟨"stock", 0, .wrap (.hashMap (.atom "std::string")) (.wrap .optional (.plain "int")), .readable⟩
        (.plain "w::Shop") :=
  ⟨by decide, rfl,
    planMember_declares
      ⟨"stock", 0, .wrap (.hashMap (.atom "std::string")) (.wrap .optional (.plain "int")), .readable⟩
      (.plain "w::Shop") "w::Shop" [] [.readable] (by decide) rfl⟩

end Member
end Accessors
