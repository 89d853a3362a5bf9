import Accessors.Proofs.Plan.Outcome
import Accessors.Proofs.Plan.Unwrapped
import Mathlib.Data.List.Basic

/-! # A single payload is planned like a member

Apart from the constructors of the case itself, a case with a single payload gets those of a member of the payload's
type that is called like the case. Only the total flavors are left out, which the case covers as a whole, and a plain
payload is not unwrapped. -/

namespace Accessors

/-- The constructors of a member of some shape that a payload of its type gets, too. -/
structure Constructor.OfPayload (shape : Shape) (k : Constructor) : Prop where
  unwraps : k.flavor = .failableReadable ∨ k.flavor = .failableWritable ∨ k.flavor = .failableOwned
  inside : shape = .plain → k.parameter = .none → k.flavor = .failableOwned

theorem Constructor.ofPayload_iff {shape : Shape} {k : Constructor} : k.OfPayload shape ↔
    (k.flavor = .failableReadable ∨ k.flavor = .failableWritable ∨ k.flavor = .failableOwned) ∧
      (shape = .plain → k.parameter = .none → k.flavor = .failableOwned) :=
  ⟨fun h => ⟨h.unwraps, h.inside⟩, fun h => ⟨h.1, h.2⟩⟩

instance (shape : Shape) (k : Constructor) : Decidable (k.OfPayload shape) :=
  decidable_of_iff _ Constructor.ofPayload_iff.symm

namespace CaseDecl
variable {d : CaseDecl} {f : FieldDecl} {scope : Scope}

theorem fault?_single (single : d.style = .single) : d.fault? = none ↔ d.arity = 1 ∧ ∃ f, d.fields = [f] := by
  simp only [fault?, single, ite_eq_right_iff, reduceCtorEq, imp_false, not_or, ne_eq,
    Classical.not_not, List.length_eq_one_iff]

theorem payload_single (single : d.style = .single) (fields : d.fields = [f]) : d.payload = f.type := by
  simp only [payload, single, fields]

theorem outcome_classifyPayload_single {catalog : Catalog} {config : Config} {payload : Option Classification}
    (single : d.style = .single) (fields : d.fields = [f]) :
    (d.classifyPayload catalog config).outcome = .ok payload ↔
      ∃ c, (classify catalog config f.type).outcome = .ok c ∧ payload = some c := by
  have eq : d.classifyPayload catalog config = (classify catalog config f.type).andThen fun p => .ok (some p) := by
    simp only [classifyPayload, single, payload_single single fields]
  rw [eq, Logged.outcome_andThen_eq_ok]
  refine exists_congr fun c => and_congr_right fun _ => ?_
  constructor
  · intro h
    cases h
    rfl
  · rintro rfl
    rfl

theorem wholeConstructors_single (single : d.style = .single) : d.wholeConstructors scope =
    ([Flavor.caseReadable, .caseWritable].filter scope.keeps).map fun g =>
      ⟨constructorName d.name g, g, .none, d.payload⟩ := by
  have kept : ∀ g, ((FlavorSet.ofList Flavor.all).contains g && scope.keeps g) = scope.keeps g := fun g => by
    rw [FlavorSet.contains_ofList, List.contains_iff_mem.mpr g.mem_all, Bool.true_and]
  simp only [wholeConstructors, plannedWhole, kept, single, reduceCtorEq, ↓reduceIte]

/-- Of the flavors of a member those that unwrap a payload are left. -/
theorem memberFlavors_ofPayload (shape : Shape) (name : Flavor → String) (value : Flavor → TypeExpr) :
    (memberFlavors.filter fun g => (Constructor.mk (name g) g .none (value g)).OfPayload shape) =
      unwrapFlavors shape := by
  by_cases plain : shape = .plain
  · simp [Constructor.ofPayload_iff, memberFlavors, unwrapFlavors, plain]
  · simp [Constructor.ofPayload_iff, memberFlavors, unwrapFlavors, plain]

theorem total_of_mem_unwrapFlavors {shape : Shape} {g : Flavor} (h : g ∈ unwrapFlavors shape) : g.total = false := by
  have failable : ∀ g ∈ [Flavor.failableReadable, .failableWritable, .failableOwned], g.total = false := by decide
  unfold unwrapFlavors at h
  split at h
  · exact failable g (List.mem_of_mem_tail (List.mem_of_mem_tail h))
  · exact failable g h

theorem plannedWhole_ofPayload (base : String) (type : TypeExpr) (c : Classification) :
    (plannedWhole base scope c.capabilities.offered (c.memberValue type) memberFlavors).filter
        (fun k => k.OfPayload c.shape) =
      plannedWhole base scope c.capabilities.offered (fun _ => c.unwrapped type) (unwrapFlavors c.shape) := by
  unfold plannedWhole
  rw [List.filter_map, List.filter_comm]
  have left := memberFlavors_ofPayload c.shape (constructorName base) (c.memberValue type)
  refine (congrArg (fun gs => List.map _ (List.filter _ gs)) left).trans (List.map_congr_left fun g hg => ?_)
  have value : c.memberValue type g = c.unwrapped type := by
    rw [Classification.memberValue, total_of_mem_unwrapFlavors (List.mem_filter.mp hg).1]
    rfl
  rw [value]

theorem plannedAt_ofPayload (base : String) (c : Classification) :
    (plannedAt base scope c).filter (fun k => k.OfPayload c.shape) = plannedAt base scope c := by
  rw [List.filter_eq_self]
  intro k hk
  obtain ⟨g, hg, rfl⟩ := List.mem_map.mp hk
  obtain ⟨listed, offered⟩ := List.mem_filter.mp hg
  have offered := (Bool.and_eq_true_iff.mp offered).1
  refine decide_eq_true ⟨?_, fun _ none => absurd none (Shape.position_ne_none offered)⟩
  rcases List.mem_cons.mp listed with rfl | listed
  · exact .inl rfl
  · exact .inr (.inl (List.mem_singleton.mp listed))

theorem unwrapConstructors_eq_filter (c : Classification) : d.unwrapConstructors scope c =
    (memberConstructors (d.name ++ "_case") d.payload scope c).filter fun k => k.OfPayload c.shape := by
  unfold memberConstructors unwrapConstructors
  rw [List.filter_append, plannedWhole_ofPayload, plannedAt_ofPayload]
  rfl

theorem constructors_single (single : d.style = .single) (fields : d.fields = [f]) (c : Classification) :
    d.constructors scope (some c) =
      (([Flavor.caseReadable, .caseWritable].filter scope.keeps).map fun g =>
        ⟨constructorName d.name g, g, .none, f.type⟩)
      ++ (memberConstructors (d.name ++ "_case") f.type scope c).filter fun k => k.OfPayload c.shape := by
  have fieldless : d.allFieldConstructors scope = [] := by
    simp only [allFieldConstructors, calledFields, single, List.flatMap_nil]
  rw [← payload_single single fields, constructors, wholeConstructors_single single, fieldless, List.append_nil,
    unwrapConstructors_eq_filter]

end CaseDecl

section
variable {catalog : Catalog} {config : Config} {owner : String} {typeScopes : List Scope}

/-- A case with a single payload is planned exactly if a member of the payload's type is. It is classified like the
    member, and behind its own constructors it gets those of the member that unwrap the payload. -/
theorem planCase_single_iff {d : CaseDecl} (single : d.style = .single) (plan : CasePlan) :
    (planCase catalog config owner typeScopes d).outcome = .ok plan ↔
      d.arity = 1 ∧ ∃ (f : FieldDecl) (member : MemberPlan), d.fields = [f] ∧
        (planMember catalog config owner typeScopes ⟨d.name ++ "_case", f.type, d.scopes⟩).outcome = .ok member ∧
        plan = ⟨d.name, member.scope, .single, some member.shape,
          (([Flavor.caseReadable, .caseWritable].filter member.scope.keeps).map fun g =>
            ⟨constructorName d.name g, g, .none, f.type⟩)
          ++ member.constructors.filter fun k => k.OfPayload member.shape.shape⟩ := by
  rw [outcome_planCase_eq_ok]
  constructor
  · rintro ⟨own, ofType, payload, well_formed, ho, ht, hp, rfl⟩
    obtain ⟨arity, f, fields⟩ := (CaseDecl.fault?_single single).mp well_formed
    obtain ⟨c, hc, rfl⟩ := (CaseDecl.outcome_classifyPayload_single single fields).mp hp
    refine ⟨arity, f, _, fields, outcome_planMember_eq_ok.mpr ⟨own, ofType, c, ho, ht, hc, rfl⟩, ?_⟩
    rw [CaseDecl.constructors_single single fields, single]
  · rintro ⟨arity, f, member, fields, planned, rfl⟩
    obtain ⟨own, ofType, c, ho, ht, hc, rfl⟩ := outcome_planMember_eq_ok.mp planned
    refine ⟨own, ofType, some c, (CaseDecl.fault?_single single).mpr ⟨arity, f, fields⟩, ho, ht,
      (CaseDecl.outcome_classifyPayload_single single fields).mpr ⟨c, hc, rfl⟩, ?_⟩
    rw [CaseDecl.constructors_single single fields, single]

end

/-- A vector in a union that is written: the case is written as a whole, where the member is written by itself. -/
theorem planCase_single_iff_slots :
    (CaseDecl.mk "slots" 1 .single [⟨"", .node "std::vector" [.atom "int"]⟩] [] "").style = .single ∧
    ∃ member plan, (planMember .standard {} "w::Shape" [.writable]
        ⟨"slots_case", .node "std::vector" [.atom "int"], []⟩).outcome = .ok member ∧
      member.constructors.map (·.flavor) = [.writable, .failableWritable, .failableWritable] ∧
      (planCase .standard {} "w::Shape" [.writable]
        ⟨"slots", 1, .single, [⟨"", .node "std::vector" [.atom "int"]⟩], [], ""⟩).outcome = .ok plan ∧
      plan.constructors.map (·.flavor) = [.caseWritable, .failableWritable, .failableWritable] :=
  ⟨rfl, _, _, rfl, rfl, (planCase_single_iff rfl _).mpr ⟨rfl, _, _, rfl, rfl, rfl⟩, rfl⟩

end Accessors
