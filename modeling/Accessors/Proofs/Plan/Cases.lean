import Accessors.Proofs.Plan.Declared
import Accessors.Proofs.Plan.Outcome
import Accessors.UnionCase

/-! # Planned and declared constructors of cases

A case is planned from its description, which tells how its payload is written and of which types its fields
are, while the accessors of the case are declared by its alternative. Both come to the same constructors, in
four groups: those of the case itself, those of the unwrapped payload, those of its elements, and those of the
fields of a tuple or a record. A case without a payload has only the first, and a plain payload is taken out
but not unwrapped.

The planner knows a tuple by its fields, while its type is known by one name. So a tuple is planned as the list of
its fields wherever it is planned as a whole, also where it is taken out. -/

namespace Accessors

/-! ### Alternatives -/

namespace Alternative

/-- The type of a tuple, as it is planned. -/
inductive ListsFields : Alternative → Ty → TypeExpr → Prop where
  | tuple (n : String) (ts : List Ty) : ListsFields (tuple n ts) (.plain n) (.node "std::tuple" (ts.map Ty.describe))

/-- An alternative that can be declared: a tuple or a record has a field, but no more than can be counted, and a
    record and its fields have names. -/
def Proper : Alternative → Prop
  | tuple _ ts => ts ≠ [] ∧ ts.length < UInt32.size
  | record n fs => fs ≠ [] ∧ fs.length < UInt32.size ∧ n ≠ "" ∧ ∀ f ∈ fs, f.1 ≠ ""
  | _ => True

/-- The name at the core of a single payload. -/
def core? : Alternative → Option String
  | single t => some t.core
  | _ => none

/-- The payload as a description: a tuple by its fields, any other by its type. -/
def describe : Alternative → TypeExpr
  | tuple _ ts => .node "std::tuple" (ts.map Ty.describe)
  | a => a.type.describe

/-- The unwrapped payload as a description. A tuple is not unwrapped. -/
def describeUnwrapped : Alternative → TypeExpr
  | tuple n ts => (tuple n ts).describe
  | a => a.type.unwrapped.describe

/-- What a payload is classified as: a single one by its type, while a tuple and a record are plain. -/
def classification : Alternative → Option Classification
  | unit => none
  | single t => some t.classification
  | a => some (.plain a.describe)

variable (a : Alternative)

/-- A payload is classified as its type is: its elements are known where it offers any. -/
theorem of_classification {p : Classification} (hp : a.classification = some p) : a.isUnit = false ∧
    p.shape = a.type.traits.shape ∧ p.capabilities = a.type.capabilities ∧
    p.unwrapped a.describe = a.describeUnwrapped ∧
    ∀ f, a.type.capabilities.atPosition.contains f = true → p.inner = a.type.element.describe := by
  cases a with
  | unit => cases hp
  | single t =>
    cases hp
    exact ⟨rfl, rfl, rfl, t.unwrapped_classification, fun _ _ => rfl⟩
  | tuple n ts =>
    cases hp
    exact ⟨rfl, rfl, rfl, rfl, fun _ h => nomatch h⟩
  | record n fs =>
    cases hp
    exact ⟨rfl, rfl, rfl, rfl, fun _ h => nomatch h⟩

theorem key_classification : a.classification.bind (·.key) = a.type.key? := by
  cases a <;> rfl

theorem describe_eq_or : a.describe = a.type.describe ∨ a.ListsFields a.type a.describe := by
  cases a with
  | tuple n ts => exact .inr (.tuple n ts)
  | _ => exact .inl rfl

theorem describeUnwrapped_eq_or :
    a.describeUnwrapped = a.type.unwrapped.describe ∨ a.ListsFields a.type.unwrapped a.describeUnwrapped := by
  cases a with
  | tuple n ts => exact .inr (.tuple n ts)
  | _ => exact .inl rfl

end Alternative

/-- A constructor of a plan that records `key` stands for an accessor of a case if it is of its flavor, takes its
    position, and has its value type, which is a list of fields where it is the tuple that the case holds. -/
structure Constructor.StandsFor {R : Ty} (a : Alternative) (key : Option TypeExpr) (c : Constructor) (l : Leg R) :
    Prop where
  flavor : l.HasFlavor c.flavor
  value : c.value = l.valueType.describe ∨ a.ListsFields l.valueType c.value
  parameter : c.parameter.StandsFor key l.position?

/-! ### What is declared -/

namespace UnionCase

/-- The flavors of the accessors of a case, group by group, in the order of the constructors. -/
def caseOrder : List Flavor := [.caseReadable, .caseWritable]

def unwrapOrder : List Flavor := [.failableReadable, .failableWritable, .failableOwned]

/-- The flavors of the accessors of a field, each with the end of its constructor's name. -/
def fieldOrder : List (Flavor × String) := [(.failableReadable, "_r"), (.failableWritable, "_w")]

variable (c : UnionCase) (U : Ty)

/-- The accessor of a flavor to the field of a type at an index. -/
def fieldAccessor? (t : Ty) (i : Nat) (f : Flavor) : Option (Leg U) :=
  if c.offersField f then
    match f with
    | .failableReadable => some (.fixed (.of (c.fieldR U t i)))
    | .failableWritable => some (.fixed (.of (c.fieldW U t i)))
    | _ => none
  else none

/-- The declared accessors in the order of the constructors. -/
def declared : List (Leg U) :=
  caseOrder.filterMap (c.caseAccessor? U) ++ unwrapOrder.filterMap (c.unwrapAccessor? U)
    ++ Member.positionOrder.filterMap (c.accessorAt? U)
    ++ c.payload.accessibleFields.zipIdx.flatMap fun ni =>
        fieldOrder.filterMap fun f => c.fieldAccessor? U ni.1.2 ni.2 f.1

/-- The constructors of the declared accessors. -/
def constructors : List Constructor :=
  ((caseOrder.filter c.offersCase).map fun f => ⟨constructorName c.name f, f, .none, c.payload.describe⟩)
    ++ ((unwrapOrder.filter c.offersUnwrap).map fun f =>
        ⟨constructorName c.unwrapBase f, f, .none, c.payload.describeUnwrapped⟩)
    ++ ((Member.positionOrder.filter c.offersAt).map fun f =>
        ⟨constructorName c.unwrapBase f true, f, c.type.positionKind, c.type.element.describe⟩)
    ++ c.payload.accessibleFields.flatMap fun n =>
        (fieldOrder.filter fun f => c.offersField f.1).map fun f =>
          ⟨c.name ++ "_" ++ n.1 ++ f.2, f.1, .none, n.2.describe⟩

end UnionCase

/-- A plan has the constructors of a case's declared accessors. -/
structure CasePlan.Declares (plan : CasePlan) (c : UnionCase) (U : Ty) : Prop where
  scope : plan.scope = c.scope
  style : plan.style = c.payload.style
  constructors : plan.constructors = c.constructors
  accessors : List.Forall₂ (Constructor.StandsFor c.payload (plan.payload.bind (·.key))) plan.constructors (c.declared U)
  /-- The accessors to a field are found under its name. -/
  fields : (c.payload.accessibleFields.map Prod.fst).Nodup → ∀ n t i,
    c.payload.accessibleFields[i]? = some (n, t) → ∀ f, c.field? U f n = c.fieldAccessor? U t i f

/-! ### The description of a case -/

namespace UnionCase
variable (c : UnionCase) (U : Ty) (scopes : List Scope)

theorem payload_describe : (c.describe scopes).payload = c.payload.describe := by
  obtain ⟨name, index, a, scope⟩ := c
  cases a with
  | tuple n ts =>
    have types : (Alternative.tuple n ts).fields.map (·.type) = ts.map Ty.describe := by
      refine List.ext_getElem (by simp [Alternative.fields]) fun i h h' => ?_
      simp [Alternative.fields]
    simp only [describe, CaseDecl.payload, Alternative.style, Alternative.describe, types]
  | _ => rfl

/-- A number of fields can be counted if the count is neither nothing nor cut off. -/
theorem counted_iff (n : Nat) :
    ¬(UInt32.ofNat n = 0 ∨ (UInt32.ofNat n).toNat ≠ n) ↔ n ≠ 0 ∧ n < UInt32.size := by
  rw [not_or, not_not, and_comm]
  constructor
  · rintro ⟨same, nonzero⟩
    refine ⟨?_, same ▸ (UInt32.ofNat n).toNat_lt_size⟩
    rintro rfl
    exact nonzero rfl
  · rintro ⟨nonzero, small⟩
    have same : (UInt32.ofNat n).toNat = n := UInt32.toNat_ofNat_of_lt' small
    refine ⟨same, fun h => nonzero ?_⟩
    rw [← same, h]
    rfl

/-- The description of a case is well formed exactly if its alternative can be declared. -/
theorem fault?_describe : (c.describe scopes).fault? = none ↔ c.payload.Proper := by
  obtain ⟨name, index, a, scope⟩ := c
  cases a with
  | unit => exact iff_of_true rfl trivial
  | single t => exact iff_of_true rfl trivial
  | tuple _ ts =>
    simp only [describe, CaseDecl.fault?, Alternative.style, Alternative.fields, List.length_map,
      List.length_zipIdx, Alternative.Proper, ite_eq_iff, reduceCtorEq, and_false, false_or, counted_iff, and_true,
      ne_eq, List.length_eq_zero_iff]
  | record n fs =>
    simp only [describe, CaseDecl.fault?, Alternative.style, Alternative.fields, List.length_map,
      Alternative.Proper, ite_eq_iff, reduceCtorEq, and_false, false_or, counted_iff, ne_eq,
      List.length_eq_zero_iff, List.any_map, List.any_eq_true, Function.comp_apply, String.isEmpty_iff, not_exists,
      not_and, and_true, and_assoc]
    exact and_congr_right fun _ => and_congr_right fun _ => And.comm

theorem calledFields_describe :
    (c.describe scopes).calledFields = c.payload.accessibleFields.map fun n => (n.1, n.2.describe) := by
  obtain ⟨name, index, a, scope⟩ := c
  cases a with
  | tuple _ ts =>
    refine List.ext_getElem ?_ fun i h h' => ?_ <;>
      simp [describe, CaseDecl.calledFields, Alternative.style, Alternative.fields, Alternative.accessibleFields]
  | record n fs =>
    simp [describe, CaseDecl.calledFields, Alternative.style, Alternative.fields, Alternative.accessibleFields]
  | _ => rfl

/-! ### Group by group -/

theorem filter_caseOrder : caseOrder.filter c.offersCase =
    (if c.payload.style = .none then [.caseReadable] else [.caseReadable, .caseWritable]).filter c.scope.keeps := by
  obtain ⟨name, index, a, scope⟩ := c
  cases a <;> rfl

theorem filter_unwrapOrder : unwrapOrder.filter c.offersUnwrap =
    if c.payload.isUnit then [] else (CaseDecl.unwrapFlavors c.type.traits.shape).filter fun f =>
      c.type.capabilities.offered.contains f && c.scope.keeps f := by
  cases hu : c.payload.isUnit with
  | true => simp [unwrapOrder, offersUnwrap, hu]
  | false =>
    by_cases plain : c.type.traits.shape = .plain
    · simp [unwrapOrder, offersUnwrap, hu, plain, CaseDecl.unwrapFlavors, List.filter_cons, and_comm]
    · simp [unwrapOrder, offersUnwrap, hu, plain, CaseDecl.unwrapFlavors, List.filter_cons, and_comm]

theorem wholeConstructors_describe : (c.describe scopes).wholeConstructors c.scope =
    (caseOrder.filter c.offersCase).map fun f => ⟨constructorName c.name f, f, .none, c.payload.describe⟩ := by
  have kept : ∀ f, ((FlavorSet.ofList Flavor.all).contains f && c.scope.keeps f) = c.scope.keeps f := fun f => by
    simp [f.mem_all]
  simp only [CaseDecl.wholeConstructors, plannedWhole, c.payload_describe, kept, c.filter_caseOrder]
  rfl

/-- The constructors for the unwrapped payload and for its elements. -/
theorem unwrapConstructors_describe {p : Classification} (hp : c.payload.classification = some p) :
    (c.describe scopes).unwrapConstructors c.scope p =
      ((unwrapOrder.filter c.offersUnwrap).map fun f =>
        ⟨constructorName c.unwrapBase f, f, .none, c.payload.describeUnwrapped⟩)
      ++ (Member.positionOrder.filter c.offersAt).map fun f =>
        ⟨constructorName c.unwrapBase f true, f, c.type.positionKind, c.type.element.describe⟩ := by
  obtain ⟨payload, shape, capabilities, unwrapped, element⟩ := c.payload.of_classification hp
  refine congrArg₂ (· ++ ·) ?_ ?_
  · simp only [plannedWhole, capabilities, shape, c.payload_describe, unwrapped, filter_unwrapOrder, payload,
      Bool.false_eq_true, ↓reduceIte]
    rfl
  · have offers : c.offersAt = fun f => c.type.capabilities.atPosition.contains f && c.scope.keeps f := by
      funext f
      rw [offersAt, payload]
      rfl
    rw [plannedAt, capabilities, offers]
    refine List.map_congr_left fun f hf => ?_
    have offered := (Bool.and_eq_true_iff.mp (List.mem_filter.mp hf).2).1
    rw [c.payload.type.capabilities_position, element f offered]
    rfl

theorem allFieldConstructors_describe : (c.describe scopes).allFieldConstructors c.scope =
    c.payload.accessibleFields.flatMap fun n =>
      (fieldOrder.filter fun f => c.offersField f.1).map fun f =>
        ⟨c.name ++ "_" ++ n.1 ++ f.2, f.1, .none, n.2.describe⟩ := by
  rw [CaseDecl.allFieldConstructors, calledFields_describe, List.flatMap_map]
  cases payload : c.payload.isUnit with
  | true =>
    cases ha : c.payload <;> rw [ha] at payload <;> first | rfl | cases payload
  | false =>
    have offers : ∀ f ∈ fieldOrder, c.offersField f.1 = c.scope.keeps f.1 := by
      simp [fieldOrder, offersField, payload]
    simp only [List.filter_congr offers]
    rfl

/-- The constructors planned for the description of a case are those of its accessors. -/
theorem constructors_describe :
    (c.describe scopes).constructors c.scope c.payload.classification = c.constructors := by
  simp only [CaseDecl.constructors, constructors, wholeConstructors_describe, allFieldConstructors_describe,
    List.append_assoc]
  cases hp : c.payload.classification with
  | some p => simp only [c.unwrapConstructors_describe scopes hp, List.append_assoc]
  | none =>
    have payload : c.payload.isUnit = true := by
      cases ha : c.payload <;> rw [ha] at hp <;> first | rfl | cases hp
    simp [filter_unwrapOrder, offersAt, payload]

/-! ### Accessor by accessor -/

theorem standsFor_case (key : Option TypeExpr) {f : Flavor} (h : c.offersCase f = true) :
    ∃ l, c.caseAccessor? U f = some l ∧
      Constructor.StandsFor c.payload key ⟨constructorName c.name f, f, .none, c.payload.describe⟩ l := by
  unfold caseAccessor?
  rw [if_pos h]
  cases f <;> first
    | exact ⟨_, rfl, rfl, c.payload.describe_eq_or, trivial⟩
    | cases h

theorem standsFor_unwrap (key : Option TypeExpr) {f : Flavor} (listed : f ∈ unwrapOrder)
    (h : c.offersUnwrap f = true) : ∃ l, c.unwrapAccessor? U f = some l ∧
      Constructor.StandsFor c.payload key ⟨constructorName c.unwrapBase f, f, .none, c.payload.describeUnwrapped⟩ l := by
  unfold unwrapAccessor?
  rw [if_pos h]
  cases f <;> first
    | exact ⟨_, rfl, rfl, c.payload.describeUnwrapped_eq_or, trivial⟩
    | exact absurd listed (by decide)

theorem standsFor_at {f : Flavor} (listed : f ∈ Member.positionOrder) (h : c.offersAt f = true) :
    ∃ l, c.accessorAt? U f = some l ∧ Constructor.StandsFor c.payload c.type.key?
      ⟨constructorName c.unwrapBase f true, f, c.type.positionKind, c.type.element.describe⟩ l := by
  have offered : c.type.capabilities.atPosition.contains f = true := by
    simp only [offersAt, Bool.and_eq_true] at h
    exact h.1.2
  obtain ⟨q, hq⟩ := Option.isSome_iff_exists.mp (c.type.position?_isSome offered)
  have stands := c.type.positionKind_standsFor
  rw [hq] at stands
  unfold accessorAt?
  rw [if_pos h, hq]
  cases f <;> first
    | exact ⟨_, rfl, fun _ => rfl, .inl rfl, stands⟩
    | exact absurd listed (by decide)

theorem standsFor_field (key : Option TypeExpr) (n : String) (t : Ty) (i : Nat) {f : Flavor × String}
    (listed : f ∈ fieldOrder) (h : c.offersField f.1 = true) : ∃ l, c.fieldAccessor? U t i f.1 = some l ∧
      Constructor.StandsFor c.payload key ⟨c.name ++ "_" ++ n ++ f.2, f.1, .none, t.describe⟩ l := by
  unfold fieldAccessor?
  rw [if_pos h]
  simp only [fieldOrder, List.mem_cons, List.not_mem_nil, or_false] at listed
  rcases listed with rfl | rfl
  · exact ⟨_, rfl, rfl, .inl rfl, trivial⟩
  · exact ⟨_, rfl, rfl, .inl rfl, trivial⟩

theorem forall₂_flatMap_zipIdx {α β γ : Type} {rel : β → γ → Prop} {g : α → List β} {f : α × Nat → List γ}
    (h : ∀ a i, List.Forall₂ rel (g a) (f (a, i))) (l : List α) :
    List.Forall₂ rel (l.flatMap g) (l.zipIdx.flatMap f) := by
  have listed : l.flatMap g = l.zipIdx.flatMap fun ai => g ai.1 := by
    conv_lhs => rw [← List.zipIdx_map_fst 0 l, List.flatMap_map]
  rw [listed]
  refine List.rel_flatMap (R := Eq) (List.forall₂_eq_eq_eq ▸ rfl) ?_
  rintro ⟨a, i⟩ _ rfl
  exact h a i

theorem standsFor_declared : List.Forall₂ (Constructor.StandsFor c.payload (c.payload.classification.bind (·.key)))
    c.constructors (c.declared U) := by
  rw [c.payload.key_classification]
  refine List.rel_append (List.rel_append (List.rel_append ?_ ?_) ?_) (forall₂_flatMap_zipIdx (fun n i => ?_) _)
  · refine forall₂_filter_map (fun f _ h => c.standsFor_case U _ h) fun f h => ?_
    unfold caseAccessor?
    rw [h, if_neg Bool.false_ne_true]
  · refine forall₂_filter_map (fun f listed h => c.standsFor_unwrap U _ listed h) fun f h => ?_
    unfold unwrapAccessor?
    rw [h, if_neg Bool.false_ne_true]
  · refine forall₂_filter_map (fun f listed h => c.standsFor_at U listed h) fun f h => ?_
    unfold accessorAt?
    rw [h, if_neg Bool.false_ne_true]
  · refine forall₂_filter_map (fun f listed h => c.standsFor_field U _ n.1 n.2 i listed h) fun f h => ?_
    unfold fieldAccessor?
    rw [h, if_neg Bool.false_ne_true]

/-- The first field of a name is the one that has it, if no two fields have the same name. -/
theorem find?_field (distinct : (c.payload.accessibleFields.map Prod.fst).Nodup) {n : String} {t : Ty} {i : Nat}
    (hi : c.payload.accessibleFields[i]? = some (n, t)) :
    (c.payload.accessibleFields.zipIdx.find? fun fi => fi.1.1 == n) = some ((n, t), i) := by
  obtain ⟨lt, eq⟩ := List.getElem?_eq_some_iff.mp hi
  refine List.find?_eq_some_iff_getElem.mpr ⟨beq_self_eq_true n, i, by simpa using lt, by simp [eq], fun j hj => ?_⟩
  have hlt : j < c.payload.accessibleFields.length := Nat.lt_trans hj lt
  have other : c.payload.accessibleFields[j].1 ≠ n := by
    have apart := List.pairwise_iff_getElem.mp distinct j i (by simpa using hlt) (by simpa using lt) hj
    rwa [List.getElem_map, List.getElem_map, eq] at apart
  simp [other]

theorem field?_eq (distinct : (c.payload.accessibleFields.map Prod.fst).Nodup) {n : String} {t : Ty} {i : Nat}
    (hi : c.payload.accessibleFields[i]? = some (n, t)) (f : Flavor) :
    c.field? U f n = c.fieldAccessor? U t i f := by
  unfold field? fieldAccessor?
  rw [c.find?_field distinct hi]
  cases f <;> rfl

/-! ### Plans -/

theorem outcome_classifyPayload (hcore : ∀ n ∈ c.payload.core?, Catalog.standard.find? n = none) :
    ((c.describe scopes).classifyPayload .standard {}).outcome = .ok c.payload.classification := by
  have payload := c.payload_describe scopes
  unfold CaseDecl.classifyPayload
  rw [payload]
  obtain ⟨name, index, a, scope⟩ := c
  cases a with
  | single t =>
    have classified : (classify .standard {} t.describe).outcome = .ok t.classification :=
      Ty.outcome_classify (hcore t.core rfl)
    exact Logged.outcome_andThen classified _
  | _ => rfl

/-- The planner plans exactly the declared constructors of a case, for every alternative that can be declared and
    every choice of annotations. -/
theorem planCase_declares (owner : String) (own ofType : Option Scope)
    (proper : c.payload.Proper) (hcore : ∀ n ∈ c.payload.core?, Catalog.standard.find? n = none)
    (hscope : c.scope = own.getD (ofType.getD .all)) :
    (c.describe own.toList).fault? = none ∧
    ∃ plan, (planCase .standard {} owner ofType.toList (c.describe own.toList)).outcome = .ok plan ∧
      plan.Declares c U := by
  have well_formed := (c.fault?_describe own.toList).mpr proper
  refine ⟨well_formed, ⟨c.name, c.scope, c.payload.style, c.payload.classification, c.constructors⟩, ?_, ?_⟩
  · have checked : ((c.describe own.toList).check (siteName owner c.name)).outcome = .ok () := by
      rw [CaseDecl.check, well_formed]
      rfl
    have scope := outcome_resolveScope own ofType .all (siteName owner c.name)
    rw [← hscope] at scope
    have payload := c.outcome_classifyPayload own.toList hcore
    unfold planCase
    refine (Logged.outcome_andThen checked _).trans ((Logged.outcome_andThen scope _).trans
      ((Logged.outcome_andThen payload _).trans ((Logged.outcome_andThen rfl _).trans ?_)))
    rw [constructors_describe]
    rfl
  · exact ⟨rfl, rfl, rfl, c.standsFor_declared U, fun distinct n t i hi f => c.field?_eq U distinct hi f⟩

/-- A tuple of two numbers is planned to be taken out as the list of its fields, while the type of its accessor is
    described by one name. -/
theorem planCase_lists_fields : ∃ plan l,
    (planCase .standard {} "w::Shape" [] (describe ⟨"point", 0, .tuple "std::tuple<int, int>"
      [.plain "int", .plain "int"], .all⟩ [])).outcome = .ok plan ∧
    unwrapAccessor? ⟨"point", 0, .tuple "std::tuple<int, int>" [.plain "int", .plain "int"], .all⟩ (.plain "w::Shape")
      .failableOwned = some l ∧
    plan.constructors.filter (·.name = "point_case_fo") =
      [⟨"point_case_fo", .failableOwned, .none, .node "std::tuple" [.atom "int", .atom "int"]⟩] ∧
    l.valueType.describe = .atom "std::tuple<int, int>" ∧
    TypeExpr.node "std::tuple" [.atom "int", .atom "int"] ≠ .atom "std::tuple<int, int>" :=
  ⟨_, _, rfl, rfl, by decide +kernel, rfl, by decide⟩

/-- A mapping of optional values in a case, read and written at a key. -/
theorem planCase_declares_stock :
    (Alternative.single (.wrap (.hashMap (.atom "std::string")) (.wrap .optional (.plain "int")))).Proper ∧
    (∀ n ∈ (Alternative.single (.wrap (.hashMap (.atom "std::string")) (.wrap .optional (.plain "int")))).core?,
      Catalog.standard.find? n = none) ∧
    (UnionCase.describe ⟨"stock", 3, .single (.wrap (.hashMap (.atom "std::string")) (.wrap .optional (.plain "int"))),
      .writable⟩ [.writable]).fault? = none ∧
    ∃ plan, (planCase .standard {} "w::Shelf" [.readable] (UnionCase.describe ⟨"stock", 3,
        .single (.wrap (.hashMap (.atom "std::string")) (.wrap .optional (.plain "int"))), .writable⟩
        [.writable])).outcome = .ok plan ∧
      plan.Declares ⟨"stock", 3, .single (.wrap (.hashMap (.atom "std::string")) (.wrap .optional (.plain "int"))),
        .writable⟩ (.plain "w::Shelf") :=
  ⟨trivial, by decide, planCase_declares ⟨"stock", 3,
    .single (.wrap (.hashMap (.atom "std::string")) (.wrap .optional (.plain "int"))), .writable⟩ (.plain "w::Shelf")
    "w::Shelf" (some .writable) (some .readable) trivial (by decide) rfl⟩

end UnionCase
end Accessors
