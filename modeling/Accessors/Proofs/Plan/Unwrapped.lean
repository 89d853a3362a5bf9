import Accessors.Proofs.Classification.Chain
import Accessors.Proofs.Plan.Outcome

/-! # What planned constructors unwrap

The value of an unwrapping constructor is found along the payload arguments that the catalog gives: that of the
type, and for two wrappers that merge that of the payload. Only for a shared guarded value the planner does not ask
the catalog. It takes the first argument of the handle, which is the guarded value only if the payload comes
first. -/

namespace Accessors

/-- A constructor without a parameter that reaches the unwrapped value. -/
def Constructor.Unwraps (c : Constructor) : Prop :=
  c.parameter = .none ∧ (c.flavor = .failableReadable ∨ c.flavor = .failableWritable ∨ c.flavor = .failableOwned)

/-- The value inside a type that has a shape, by the arguments that the catalog selects. -/
inductive Catalog.Unwraps (catalog : Catalog) (t : TypeExpr) (shape : Shape) : TypeExpr → Prop where
  | plain (h : shape = .plain) : Unwraps catalog t shape t
  /-- The payload of a guarded value is out of reach without the lock. -/
  | guarded {e : Entry} {p : TypeExpr} (guard : shape.sharedGuard = true) (entry : catalog.find? t.name = some e)
      (payload : t.args[e.payload]? = some p) : Unwraps catalog t shape p
  | merged {e f : Entry} {p q : TypeExpr} (open_ : shape.sharedGuard = false) (entry : catalog.find? t.name = some e)
      (payload : t.args[e.payload]? = some p) (inner : catalog.find? p.name = some f)
      (pair : Shape.combine e.shape f.shape = some shape) (next : p.args[f.payload]? = some q) :
      Unwraps catalog t shape q
  | single {e : Entry} {p : TypeExpr} (wraps : shape ≠ .plain) (open_ : shape.sharedGuard = false)
      (entry : catalog.find? t.name = some e) (own : e.shape = shape) (payload : t.args[e.payload]? = some p) :
      Unwraps catalog t shape p

/-- What an unwrapping constructor reaches: the value inside, but the first argument of a shared guard. -/
structure Catalog.Reaches (catalog : Catalog) (t : TypeExpr) (shape : Shape) (value : TypeExpr) : Prop where
  unwraps : shape.sharedGuard = false → catalog.Unwraps t shape value
  guarded : shape.sharedGuard = true → t.args.head? = some value ∧ ∃ e, catalog.find? t.name = some e ∧
    (catalog.Unwraps t shape value ↔ t.args[e.payload]? = t.args.head?)

namespace Catalog
variable {catalog : Catalog} {config : Config} {t v : TypeExpr} {shape : Shape} {e : Entry}

theorem unwraps_iff_of_guard (guard : shape.sharedGuard = true) (he : catalog.find? t.name = some e) :
    catalog.Unwraps t shape v ↔ t.args[e.payload]? = some v := by
  constructor
  · intro h
    cases h with
    | plain h =>
      rw [h] at guard
      cases guard
    | guarded _ entry payload =>
      cases entry.symm.trans he
      exact payload
    | merged open_ => cases guard.symm.trans open_
    | single _ open_ => cases guard.symm.trans open_
  · exact .guarded guard he

theorem reaches_of_guard {p : TypeExpr} (guard : shape.sharedGuard = true) (he : catalog.find? t.name = some e)
    (hp : t.args[e.payload]? = some p) (default : TypeExpr) :
    catalog.Reaches t shape (t.args.headD default) := by
  have first : t.args.head? = some (t.args.headD default) := by
    cases ha : t.args with
    | nil =>
      rw [ha] at hp
      cases hp
    | cons a as => rfl
  refine ⟨fun open_ => ?_, fun _ => ⟨first, e, he, ?_⟩⟩
  · cases guard.symm.trans open_
  · rw [first]
    exact unwraps_iff_of_guard guard he

theorem reaches_of_unwraps (open_ : shape.sharedGuard = false) (h : catalog.Unwraps t shape v) :
    catalog.Reaches t shape v :=
  ⟨fun _ => h, fun guard => by cases guard.symm.trans open_⟩

theorem exists_payload {c : Classification} (h : Classified catalog t e c) : ∃ p, t.args[e.payload]? = some p := by
  cases h with
  | single hs => exact ⟨_, (Entry.select_eq_some hs).1⟩
  | merged hs => exact ⟨_, (Entry.select_eq_some hs).1⟩

theorem unwraps_inner {c : Classification} (he : catalog.find? t.name = some e) (h : Classified catalog t e c)
    (wraps : c.shape ≠ .plain) (open_ : c.shape.sharedGuard = false) : catalog.Unwraps t c.shape c.inner := by
  cases h with
  | single hs => exact .single wraps open_ he rfl (Entry.select_eq_some hs).1
  | merged hs hf hs' pair =>
    exact .merged open_ he (Entry.select_eq_some hs).1 hf pair (Entry.select_eq_some hs').1

theorem reaches_unwrapped {c : Classification} (h : (classify catalog config t).outcome = .ok c) :
    catalog.Reaches t c.shape (c.unwrapped t) := by
  unfold Classification.unwrapped
  by_cases plain : c.shape = .plain
  · rw [if_pos plain]
    exact reaches_of_unwraps (by rw [plain]; rfl) (.plain plain)
  · rw [if_neg plain]
    cases he : catalog.find? t.name with
    | none =>
      rcases classifyNode_cases catalog t with ⟨-, eq⟩ | ⟨e, he', -⟩ | ⟨e, -, -, he', -⟩
      · rw [outcome_classify, eq] at h
        cases h
        exact absurd rfl plain
      · cases he.symm.trans he'
      · cases he.symm.trans he'
    | some e =>
      have classified := classified_of_outcome he h
      by_cases guard : c.shape.sharedGuard = true
      · rw [if_pos guard]
        obtain ⟨p, hp⟩ := exists_payload classified
        exact reaches_of_guard guard he hp c.inner
      · rw [if_neg guard]
        have open_ := Bool.eq_false_iff.mpr guard
        exact reaches_of_unwraps open_ (unwraps_inner he classified plain open_)

end Catalog

/-! ### Planned constructors -/

theorem Shape.position_ne_none {s : Shape} {m : Sharing} {f : Flavor}
    (h : (s.capabilities m).atPosition.contains f = true) : (s.capabilities m).position ≠ .none := by
  intro none
  cases s <;> first | cases h | cases none

theorem not_unwraps_of_plannedAt {base : String} {scope : Scope} {p : Classification} {c : Constructor}
    (h : c ∈ plannedAt base scope p) : ¬c.Unwraps := by
  obtain ⟨f, hf, rfl⟩ := List.mem_map.mp h
  have offered := (Bool.and_eq_true_iff.mp (List.mem_filter.mp hf).2).1
  exact fun unwraps => Shape.position_ne_none offered unwraps.1

theorem value_of_memberConstructors {name : String} {type : TypeExpr} {scope : Scope} {p : Classification}
    {c : Constructor} (h : c ∈ memberConstructors name type scope p) (unwraps : c.Unwraps) :
    c.value = p.unwrapped type := by
  rcases List.mem_append.mp h with whole | at_
  · obtain ⟨f, -, rfl⟩ := List.mem_map.mp whole
    rcases unwraps.2 with hf | hf | hf <;> cases hf <;> rfl
  · exact absurd unwraps (not_unwraps_of_plannedAt at_)

namespace CaseDecl
variable {d : CaseDecl} {scope : Scope} {p : Classification} {c : Constructor}

theorem not_unwraps_of_wholeConstructors (h : c ∈ d.wholeConstructors scope) : ¬c.Unwraps := by
  obtain ⟨f, hf, rfl⟩ := List.mem_map.mp h
  have isCase : f = .caseReadable ∨ f = .caseWritable := by
    have listed := (List.mem_filter.mp hf).1
    split at listed
    · exact .inl (List.mem_singleton.mp listed)
    · simpa using listed
  rintro ⟨-, unwraps⟩
  rcases isCase with rfl | rfl <;> rcases unwraps with h | h | h <;> cases h

theorem value_of_constructors (single : d.style = .single) (h : c ∈ d.constructors scope (some p))
    (unwraps : c.Unwraps) : c.value = p.unwrapped d.payload := by
  simp only [constructors, allFieldConstructors, calledFields, single, List.flatMap_nil, List.append_nil] at h
  rcases List.mem_append.mp h with whole | inside
  · exact absurd unwraps (not_unwraps_of_wholeConstructors whole)
  · rcases List.mem_append.mp inside with unwrapped | at_
    · obtain ⟨f, -, rfl⟩ := List.mem_map.mp unwrapped
      rfl
    · exact absurd unwraps (not_unwraps_of_plannedAt at_)

end CaseDecl

section
variable {catalog : Catalog} {config : Config} {owner : String} {typeScopes : List Scope}

theorem planMember_eq_ok {m : MemberDecl} {plan : MemberPlan}
    (h : (planMember catalog config owner typeScopes m).outcome = .ok plan) :
    (classify catalog config m.type).outcome = .ok plan.shape ∧
      plan.constructors = memberConstructors m.name m.type plan.scope plan.shape := by
  obtain ⟨_, _, c, -, -, hc, rfl⟩ := outcome_planMember_eq_ok.mp h
  exact ⟨hc, rfl⟩

theorem planCase_eq_ok {d : CaseDecl} {plan : CasePlan} (single : d.style = .single)
    (h : (planCase catalog config owner typeScopes d).outcome = .ok plan) :
    ∃ c, (classify catalog config d.payload).outcome = .ok c ∧ plan.payload = some c ∧
      plan.constructors = d.constructors plan.scope (some c) := by
  obtain ⟨_, _, payload, -, -, -, hp, rfl⟩ := outcome_planCase_eq_ok.mp h
  simp only [CaseDecl.classifyPayload, single] at hp
  obtain ⟨c, hc, hp⟩ := Logged.outcome_andThen_eq_ok.mp hp
  cases hp
  exact ⟨c, hc, rfl, rfl⟩

end

/-- Planned unwrapping constructors, of members and of single payloads, reach what the catalog leads to. Only the
    step into a shared guarded value comes to the first argument of the handle instead, which is the guarded value
    exactly if the payload argument is equal to the first one. -/
theorem planned_unwraps_reach (catalog : Catalog) (config : Config) (owner : String) (typeScopes : List Scope) :
    (∀ (m : MemberDecl) (plan : MemberPlan), (planMember catalog config owner typeScopes m).outcome = .ok plan →
      ∀ c ∈ plan.constructors, c.Unwraps → catalog.Reaches m.type plan.shape.shape c.value) ∧
    ∀ (d : CaseDecl) (plan : CasePlan), d.style = .single →
      (planCase catalog config owner typeScopes d).outcome = .ok plan → ∃ payload, plan.payload = some payload ∧
        ∀ c ∈ plan.constructors, c.Unwraps → catalog.Reaches d.payload payload.shape c.value := by
  constructor
  · intro m plan h c hc unwraps
    obtain ⟨classified, planned⟩ := planMember_eq_ok h
    rw [planned] at hc
    rw [value_of_memberConstructors hc unwraps]
    exact Catalog.reaches_unwrapped classified
  · intro d plan single h
    obtain ⟨payload, classified, hp, planned⟩ := planCase_eq_ok single h
    refine ⟨payload, hp, fun c hc unwraps => ?_⟩
    rw [planned] at hc
    rw [CaseDecl.value_of_constructors single hc unwraps]
    exact Catalog.reaches_unwrapped classified

/-! ### A handle with a label

The payload of this handle is its second argument, and the first is a plain type. -/

def labeledHandle : Catalog :=
  .insert .standard "app::handle" { shape := .sharedOwnership, sharing := .threadLocal, payload := 1 }

def guardedPoint : TypeExpr := .node "kpath::mutex_guarded" [.atom "w::Point"]

def labeledGuard : TypeExpr := .node "app::handle" [.atom "int", guardedPoint]

def labeledCase : CaseDecl := ⟨"locked", 1, .single, [⟨"", labeledGuard⟩], [], ""⟩

theorem planned_unwraps_reach_labeled :
    (∃ plan, (planMember labeledHandle {} "w::Shop" [] ⟨"stock", labeledGuard, []⟩).outcome = .ok plan ∧
      plan.constructors.map (·.value) = [labeledGuard, labeledGuard, .atom "int", .atom "int"] ∧
      ∀ c ∈ plan.constructors, c.Unwraps → labeledHandle.Reaches labeledGuard plan.shape.shape c.value) ∧
    ∃ plan, (planCase labeledHandle {} "w::Shape" [] labeledCase).outcome = .ok plan ∧
      ∃ payload, plan.payload = some payload ∧
        ∀ c ∈ plan.constructors, c.Unwraps → labeledHandle.Reaches labeledGuard payload.shape c.value :=
  ⟨⟨_, rfl, rfl, (planned_unwraps_reach labeledHandle {} "w::Shop" []).1 ⟨"stock", labeledGuard, []⟩ _ rfl⟩,
    ⟨_, rfl, (planned_unwraps_reach labeledHandle {} "w::Shape" []).2 labeledCase _ rfl rfl⟩⟩

/-- So an unwrapping constructor can be planned for a value that the catalog does not lead to: here it is the label,
    not the guarded point. -/
theorem label_is_unwrapped : ¬∀ (catalog : Catalog) (config : Config) (owner : String) (typeScopes : List Scope)
    (m : MemberDecl) (plan : MemberPlan), (planMember catalog config owner typeScopes m).outcome = .ok plan →
      ∀ c ∈ plan.constructors, c.Unwraps → catalog.Unwraps m.type plan.shape.shape c.value := by
  intro all
  have planned : (planMember labeledHandle {} "w::Shop" [] ⟨"stock", labeledGuard, []⟩).outcome = .ok _ := rfl
  have led := all labeledHandle {} "w::Shop" [] ⟨"stock", labeledGuard, []⟩ _ planned
    ⟨"stock_fr", .failableReadable, .none, .atom "int"⟩ (by decide) ⟨rfl, .inl rfl⟩
  have payload : labeledGuard.args[1]? = some (.atom "int") := (Catalog.unwraps_iff_of_guard rfl rfl).mp led
  revert payload
  decide

end Accessors
