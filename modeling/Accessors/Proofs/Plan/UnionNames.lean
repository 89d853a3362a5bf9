import Accessors.Proofs.Plan.Names
import Accessors.Proofs.Plan.Scopes
import Mathlib.Data.List.Pairwise

/-! # Names of union cases

The constructors of a case share the base that is made of the case's name and `case`, those of a field the base that
is made of the case's and the field's name. Different cases and fields may come to one base, since names can have
underscores, and a field can be called `case`. Names of the plan then clash, but in no other way. -/

namespace Accessors

/-! ### What shares a base -/

/-- How a constructor for a whole case or for a field is called behind the base. -/
def Family.ending : Family → String
  | read => "_r"
  | write => "_w"
  | own => "_o"

theorem Family.ending_injective : Function.Injective Family.ending := by
  intro m m' same
  cases m <;> cases m' <;> first | rfl | exact absurd same (by decide)

/-- The ways in which a scope lends a field: to be read, or to be written. -/
def Scope.lent (s : Scope) : List Family := [Family.read, .write].filter fun m => s = .all ∨ s = m.scope

namespace CaseDecl

/-- The ways in which a whole case is lent. Without a payload there is nothing to write. -/
def lent (c : CaseDecl) (s : Scope) : List Family := s.lent.filter fun m => m = .write → c.style ≠ .none

def fieldBase (c : CaseDecl) (field : String) : String := c.name ++ "_" ++ field

def fieldGroup (c : CaseDecl) (s : Scope) (field : String) : NameGroup :=
  ⟨c.fieldBase field, s.lent.map Family.ending⟩

def unwrapEndings (c : CaseDecl) (s : Scope) : Option Classification → List String
  | none => []
  | some p => (c.unwrapConstructors s p).map Constructor.ending

def ownGroup (c : CaseDecl) (s : Scope) (payload : Option Classification) : NameGroup :=
  ⟨c.unwrapBase, (c.lent s).map Family.ending ++ c.unwrapEndings s payload⟩

/-- The names of a case's constructors: those of the case and its payload, and those of each field. -/
def groups (c : CaseDecl) (s : Scope) (payload : Option Classification) : List NameGroup :=
  c.ownGroup s payload :: c.calledFields.map fun f => c.fieldGroup s f.1

/-- The fields of a record are called differently. -/
def FieldsDistinct (c : CaseDecl) : Prop := c.style = .labeled → (c.fields.map (·.name)).Nodup

instance (c : CaseDecl) : Decidable c.FieldsDistinct := inferInstanceAs (Decidable (_ → _))

/-- The case is called like another one, with an underscore and more behind. -/
def Extends (d c : CaseDecl) : Prop := (c.name ++ "_").toList <+: d.name.toList

instance (d c : CaseDecl) : Decidable (d.Extends c) := inferInstanceAs (Decidable (_ <+: _))

variable (c : CaseDecl) (s : Scope) (payload : Option Classification)

/-! ### The names of a case -/

theorem names_wholeConstructors :
    (c.wholeConstructors s).map (·.name) = ((c.lent s).map Family.ending).map (c.unwrapBase ++ ·) := by
  have read : constructorName c.name .caseReadable = c.unwrapBase ++ "_r" := by
    simp [constructorName, unwrapBase, Flavor.suffix, String.append_assoc]
  have write : constructorName c.name .caseWritable = c.unwrapBase ++ "_w" := by
    simp [constructorName, unwrapBase, Flavor.suffix, String.append_assoc]
  cases style : c.style <;> cases s <;>
    simp [wholeConstructors, plannedWhole, style, lent, Scope.lent, Scope.keeps, Scope.filter, Flavor.all,
      Family.scope, Family.ending, read, write]

theorem names_unwrapConstructors (p : Classification) : (c.unwrapConstructors s p).map (·.name) =
    ((c.unwrapConstructors s p).map Constructor.ending).map (c.unwrapBase ++ ·) := by
  refine names_eq_of_endings fun k hk => ?_
  rcases List.mem_append.mp hk with whole | at_
  · exact name_of_plannedWhole whole
  · exact name_of_plannedAt at_

theorem names_fieldConstructors (base : String) (type : TypeExpr) :
    (fieldConstructors s base type).map (·.name) = (s.lent.map Family.ending).map (base ++ ·) := by
  cases s <;> rfl

theorem names_allFieldConstructors : (c.allFieldConstructors s).map (·.name) =
    (c.calledFields.map fun f => c.fieldGroup s f.1).flatMap NameGroup.names := by
  rw [allFieldConstructors, List.map_flatMap, List.flatMap_map]
  exact List.flatMap_congr fun f _ => names_fieldConstructors s (c.fieldBase f.1) f.2

theorem names_constructors :
    (c.constructors s payload).map (·.name) = (c.groups s payload).flatMap NameGroup.names := by
  unfold constructors
  rw [List.map_append, List.map_append, names_allFieldConstructors, names_wholeConstructors, groups, List.flatMap_cons,
    NameGroup.names, ownGroup, List.map_append]
  cases payload with
  | none => rfl
  | some p => rw [unwrapEndings, names_unwrapConstructors]

/-! ### Endings -/

theorem endings_lent : ((c.lent s).map Family.ending).Sublist ["_r", "_w"] :=
  (List.filter_sublist.trans List.filter_sublist).map Family.ending

theorem endings_unwrap : (c.unwrapEndings s payload).Sublist ["_fr", "_fw", "_fo", "_fr_at", "_fw_at"] := by
  cases payload with
  | none => exact List.nil_sublist _
  | some p =>
    have unwrapped : ((unwrapFlavors p.shape).map (·.ending false)).Sublist ["_fr", "_fw", "_fo"] := by
      unfold unwrapFlavors
      split <;> decide
    rw [unwrapEndings, unwrapConstructors, List.map_append]
    exact ((endings_plannedWhole _ s _ _ _).trans unwrapped).append (endings_plannedAt _ s p)

theorem proper_groups : ∀ g ∈ c.groups s payload, g.Proper := by
  intro g hg
  rcases List.mem_cons.mp hg with rfl | field
  · have both := (c.endings_lent s).append (c.endings_unwrap s payload)
    exact both.trans (by decide)
  · obtain ⟨f, -, rfl⟩ := List.mem_map.mp field
    have lent : (s.lent.map Family.ending).Sublist ["_r", "_w"] := List.filter_sublist.map Family.ending
    exact lent.trans (by decide)

/-! ### Groups apart -/

/-- Different positions are called differently. -/
theorem toString_position_injective : Function.Injective (toString : Nat → String) := by
  intro i j same
  rw [Nat.toString_eq_ofList_toDigits, Nat.toString_eq_ofList_toDigits, String.ofList_inj] at same
  have read := congrArg (Nat.ofDigitChars 10 · 0) same
  rwa [Nat.ofDigitChars_ten_toDigits, Nat.ofDigitChars_ten_toDigits] at read

theorem nodup_calledFields (distinct : c.FieldsDistinct) : (c.calledFields.map Prod.fst).Nodup := by
  unfold calledFields
  cases style : c.style with
  | none => exact List.nodup_nil
  | single => exact List.nodup_nil
  | positional =>
    have positions : ((c.fields.zipIdx.map Prod.snd).map toString).Nodup := by
      rw [List.zipIdx_map_snd]
      exact List.Nodup.map toString_position_injective List.nodup_range'
    rwa [List.map_map] at positions ⊢
  | labeled =>
    simp only [List.map_map]
    exact distinct style

variable {c} {d : CaseDecl} {s} {s' : Scope} {payload} {payload' : Option Classification} {f g : String}

theorem apart_own (other : c.name ≠ d.name) : (c.ownGroup s payload).Apart (d.ownGroup s' payload') :=
  fun same => absurd ((String.append_left_inj "_case").mp same) other

/-- Only whole cases have the endings of fields. What unwraps a payload ends in another way. -/
theorem apart_own_field_iff : (c.ownGroup s payload).Apart (d.fieldGroup s' f) ↔
    (d.fieldBase f = c.unwrapBase → ∀ m ∈ s'.lent, m ∉ c.lent s) := by
  constructor
  · intro apart same m field whole
    exact apart same.symm (List.mem_append_left _ (List.mem_map_of_mem whole)) (List.mem_map_of_mem field)
  · intro none same e own he
    obtain ⟨m, field, rfl⟩ := List.mem_map.mp he
    rcases List.mem_append.mp own with whole | unwrapped
    · obtain ⟨m', hm', eq⟩ := List.mem_map.mp whole
      exact none same.symm m field (Family.ending_injective eq ▸ hm')
    · have apart : ∀ m ∈ [Family.read, .write], m.ending ∉ ["_fr", "_fw", "_fo", "_fr_at", "_fw_at"] := by decide
      exact apart m (List.mem_filter.mp field).1 ((c.endings_unwrap s payload).subset unwrapped)

theorem apart_field_iff : (c.fieldGroup s f).Apart (d.fieldGroup s' g) ↔
    (c.fieldBase f = d.fieldBase g → ∀ m ∈ s.lent, m ∉ s'.lent) := by
  refine imp_congr_right fun _ => ?_
  constructor
  · intro disjoint m hm hm'
    exact disjoint (List.mem_map_of_mem hm) (List.mem_map_of_mem hm')
  · intro none e he he'
    obtain ⟨m, hm, rfl⟩ := List.mem_map.mp he
    obtain ⟨m', hm', same⟩ := List.mem_map.mp he'
    exact none m hm (Family.ending_injective same ▸ hm')

end CaseDecl

/-! ### Clashes -/

namespace UnionDecl
variable (t : UnionDecl) (config : Config)

def scopeOf (c : CaseDecl) : Scope := Scope.inForce c.scopes t.scopes config.defaultScope

/-- Two constructors of a union get one name: those of a field and of a whole case, or those of fields of different
    cases. Both are lent in the way `m`. -/
inductive Clash : Prop where
  | case {c d : CaseDecl} {f : String × TypeExpr} {m : Family} (hc : c ∈ t.cases) (hd : d ∈ t.cases)
      (hf : f ∈ c.calledFields) (same : c.fieldBase f.1 = d.unwrapBase) (field : m ∈ (t.scopeOf config c).lent)
      (whole : m ∈ d.lent (t.scopeOf config d)) : Clash
  | field {c d : CaseDecl} {f g : String × TypeExpr} {m : Family} (hc : c ∈ t.cases) (hd : d ∈ t.cases)
      (other : c.name ≠ d.name) (hf : f ∈ c.calledFields) (hg : g ∈ d.calledFields)
      (same : c.fieldBase f.1 = d.fieldBase g.1) (left : m ∈ (t.scopeOf config c).lent)
      (right : m ∈ (t.scopeOf config d).lent) : Clash

/-- All names of the union, when the payloads of its cases are classified as given. -/
def groups (payload : CaseDecl → Option Classification) : List NameGroup :=
  t.cases.flatMap fun c => c.groups (t.scopeOf config c) (payload c)

variable {t config} {payload : CaseDecl → Option Classification}

theorem not_clash_of_pairwise (apart : (t.groups config payload).Pairwise NameGroup.Apart) : ¬t.Clash config := by
  obtain ⟨within, across⟩ := List.pairwise_flatMap.mp apart
  have : Std.Symm fun c d : CaseDecl => ∀ g ∈ c.groups (t.scopeOf config c) (payload c),
      ∀ h ∈ d.groups (t.scopeOf config d) (payload d), g.Apart h :=
    ⟨fun _ _ apart g hg h hh same => List.disjoint_symm (apart h hh g hg same.symm)⟩
  have own (c : CaseDecl) : c.ownGroup (t.scopeOf config c) (payload c) ∈ c.groups (t.scopeOf config c) (payload c) :=
    List.mem_cons_self
  have field {c : CaseDecl} {f : String × TypeExpr} (hf : f ∈ c.calledFields) :
      c.fieldGroup (t.scopeOf config c) f.1 ∈ c.groups (t.scopeOf config c) (payload c) :=
    List.mem_cons_of_mem _ (List.mem_map_of_mem hf)
  intro clash
  cases clash with
  | @case c d f m hc hd hf same lent whole =>
    have pair : (d.ownGroup (t.scopeOf config d) (payload d)).Apart (c.fieldGroup (t.scopeOf config c) f.1) := by
      -- a case can clash with a field of its own
      by_cases eq : d = c
      · subst eq
        exact (List.pairwise_cons.mp (within d hd)).1 _ (List.mem_map_of_mem hf)
      · exact across.forall hd hc eq _ (own d) _ (field hf)
    exact CaseDecl.apart_own_field_iff.mp pair same m lent whole
  | @field c d f g m hc hd other hf hg same left right =>
    have pair := across.forall hc hd (fun eq => other (congrArg CaseDecl.name eq)) _ (field hf) _ (field hg)
    exact CaseDecl.apart_field_iff.mp pair same m left right

theorem pairwise_of_not_clash (distinct : (t.cases.map (·.name)).Nodup)
    (fields : ∀ c ∈ t.cases, (c.calledFields.map Prod.fst).Nodup) (none : ¬t.Clash config) :
    (t.groups config payload).Pairwise NameGroup.Apart := by
  refine List.pairwise_flatMap.mpr ⟨fun c hc => List.pairwise_cons.mpr ⟨?_, ?_⟩, ?_⟩
  -- a case and its fields, the fields of a case among themselves, and two cases
  · refine List.forall_mem_map.mpr fun f hf => CaseDecl.apart_own_field_iff.mpr fun same m field whole => ?_
    exact none (.case hc hc hf same field whole)
  · refine List.pairwise_map.mpr ((List.pairwise_map.mp (fields c hc)).imp fun other same => ?_)
    exact absurd ((String.append_right_inj (c.name ++ "_")).mp same) other
  · refine (List.pairwise_map.mp distinct).imp_of_mem fun {c d} hc hd other g hg h hh => ?_
    rcases List.mem_cons.mp hg with rfl | hg <;> rcases List.mem_cons.mp hh with rfl | hh
    · exact CaseDecl.apart_own other
    · obtain ⟨f, hf, rfl⟩ := List.mem_map.mp hh
      exact CaseDecl.apart_own_field_iff.mpr fun same m field whole => none (.case hd hc hf same field whole)
    · obtain ⟨f, hf, rfl⟩ := List.mem_map.mp hg
      refine symm (CaseDecl.apart_own_field_iff.mpr fun same m field whole => ?_)
      exact none (.case hc hd hf same field whole)
    · obtain ⟨f, hf, rfl⟩ := List.mem_map.mp hg
      obtain ⟨f', hf', rfl⟩ := List.mem_map.mp hh
      exact CaseDecl.apart_field_iff.mpr fun same m left right => none (.field hc hd other hf hf' same left right)

end UnionDecl

/-! ### Whole unions -/

/-- The names of all constructors of a plan. -/
def UnionPlan.names (plan : UnionPlan) : List String :=
  plan.cases.flatMap fun c => c.constructors.map (·.name)

theorem names_of_planUnion {catalog : Catalog} {config : Config} {t : UnionDecl} {plan : UnionPlan}
    (planned : (planUnion catalog config t).outcome = .ok plan) :
    ∃ payload, plan.names = (t.groups config payload).flatMap NameGroup.names := by
  obtain ⟨-, plans, items, rfl⟩ := ((planUnion_inOrder catalog config t).succeeds plan).mp planned
  refine ⟨fun c => (c.classifyPayload catalog config).outcome.toOption.join, ?_⟩
  have each : List.Forall₂ (fun c p => p.constructors.map (·.name) =
      (c.groups (t.scopeOf config c) (c.classifyPayload catalog config).outcome.toOption.join).flatMap NameGroup.names)
      t.cases plans := by
    refine items.imp fun c p h => ?_
    obtain ⟨own, ofType, payload, -, ho, ht, hp, rfl⟩ := outcome_planCase_eq_ok.mp h
    rw [hp, UnionDecl.scopeOf, ho, ht, Scope.inForce_toList]
    exact c.names_constructors _ payload
  rw [UnionPlan.names, UnionDecl.groups, List.flatMap_assoc, ← List.forall₂_eq_eq_eq]
  exact List.rel_flatMap each.flip fun p c same => same ▸ List.forall₂_refl _

/-! ### Underscores -/

theorem CaseDecl.called_ne_case {c : CaseDecl} (named : c.style = .labeled → ∀ f ∈ c.fields, f.name ≠ "case")
    {f : String × TypeExpr} (hf : f ∈ c.calledFields) : f.1 ≠ "case" := by
  unfold calledFields at hf
  cases style : c.style with
  | none => simp only [style, List.not_mem_nil] at hf
  | single => simp only [style, List.not_mem_nil] at hf
  | positional =>
    simp only [style] at hf
    obtain ⟨⟨_, i⟩, -, rfl⟩ := List.mem_map.mp hf
    have digits : ∀ char ∈ (toString i).toList, char.isDigit := by
      rw [Nat.toString_eq_ofList_toDigits, String.toList_ofList]
      exact fun char => Nat.isDigit_of_mem_toDigits (by decide) (by decide)
    intro (same : toString i = "case")
    have letter : 'c' ∈ (toString i).toList := by
      rw [same]
      decide
    exact absurd (digits 'c' letter) (by decide)
  | labeled =>
    simp only [style] at hf
    obtain ⟨field, listed, rfl⟩ := List.mem_map.mp hf
    exact named style field listed

/-- Two lists that are split at the same element have the same parts, unless one is split further on. -/
theorem split_append_cons {α : Type} {a : α} {l l' r r' : List α} (same : l ++ a :: r = l' ++ a :: r') :
    l = l' ∧ r = r' ∨ (∃ more, l' = l ++ a :: more) ∨ ∃ more, l = l' ++ a :: more := by
  rcases List.append_eq_append_iff.mp same with ⟨between, rfl, rest⟩ | ⟨between, rfl, rest⟩
  · rcases List.cons_eq_append_iff.mp rest with ⟨rfl, tails⟩ | ⟨more, rfl, -⟩
    · exact .inl ⟨(List.append_nil l).symm, (List.cons.inj tails).2.symm⟩
    · exact .inr (.inl ⟨more, rfl⟩)
  · rcases List.cons_eq_append_iff.mp rest with ⟨rfl, tails⟩ | ⟨more, rfl, -⟩
    · exact .inl ⟨List.append_nil l', (List.cons.inj tails).2⟩
    · exact .inr (.inr ⟨more, rfl⟩)

theorem CaseDecl.extends_iff {c d : CaseDecl} :
    d.Extends c ↔ ∃ more, d.name.toList = c.name.toList ++ '_' :: more := by
  unfold Extends
  rw [String.toList_append, List.prefix_iff_exists_append_eq]
  exact exists_congr fun more => by rw [List.append_assoc, eq_comm]; rfl

theorem CaseDecl.fieldBase_inj {c d : CaseDecl} {f g : String} (same : c.fieldBase f = d.fieldBase g) :
    c.name = d.name ∧ f = g ∨ d.Extends c ∨ c.Extends d := by
  have parts (c : CaseDecl) (f : String) : (c.fieldBase f).toList = c.name.toList ++ '_' :: f.toList := by
    rw [fieldBase, String.toList_append, String.toList_append, List.append_assoc]
    rfl
  have whole := congrArg String.toList same
  rw [parts, parts] at whole
  rcases split_append_cons whole with ⟨name, field⟩ | longer | longer
  · exact .inl ⟨String.toList_inj.mp name, String.toList_inj.mp field⟩
  · exact .inr (.inl (extends_iff.mpr longer))
  · exact .inr (.inr (extends_iff.mpr longer))

theorem CaseDecl.unwrapBase_eq_fieldBase (c : CaseDecl) : c.unwrapBase = c.fieldBase "case" := by
  rw [fieldBase, String.append_assoc]
  rfl

theorem UnionDecl.not_clash_of_no_extension {t : UnionDecl} {config : Config}
    (apart : ∀ c ∈ t.cases, ∀ d ∈ t.cases, ¬d.Extends c)
    (named : ∀ c ∈ t.cases, c.style = .labeled → ∀ f ∈ c.fields, f.name ≠ "case") : ¬t.Clash config := by
  intro clash
  cases clash with
  | case hc hd hf same =>
    have parts := same.trans (CaseDecl.unwrapBase_eq_fieldBase _)
    rcases CaseDecl.fieldBase_inj parts with ⟨-, called⟩ | longer | longer
    · exact CaseDecl.called_ne_case (named _ hc) hf called
    · exact apart _ hc _ hd longer
    · exact apart _ hd _ hc longer
  | field hc hd other hf hg same =>
    rcases CaseDecl.fieldBase_inj same with ⟨called, -⟩ | longer | longer
    · exact other called
    · exact apart _ hc _ hd longer
    · exact apart _ hd _ hc longer

/-- The names of a union's plan are distinct exactly if no field clashes with a case or with a field of another case.
    None does if no case is called like another one with an underscore and more, and no field is called `case`. -/
theorem union_names_nodup_iff {catalog : Catalog} {config : Config} {t : UnionDecl} {plan : UnionPlan}
    (planned : (planUnion catalog config t).outcome = .ok plan) (distinct : (t.cases.map (·.name)).Nodup)
    (fields : ∀ c ∈ t.cases, c.FieldsDistinct) :
    (plan.names.Nodup ↔ ¬t.Clash config) ∧
      ((∀ c ∈ t.cases, ∀ d ∈ t.cases, ¬d.Extends c) →
        (∀ c ∈ t.cases, c.style = .labeled → ∀ f ∈ c.fields, f.name ≠ "case") → plan.names.Nodup) := by
  obtain ⟨payload, names⟩ := names_of_planUnion planned
  have proper : ∀ g ∈ t.groups config payload, g.Proper := by
    intro g hg
    obtain ⟨c, -, hg⟩ := List.mem_flatMap.mp hg
    exact c.proper_groups _ _ g hg
  have nodup_iff : plan.names.Nodup ↔ ¬t.Clash config := by
    rw [names, NameGroup.nodup_flatMap_names_iff proper]
    constructor
    · exact UnionDecl.not_clash_of_pairwise
    · exact UnionDecl.pairwise_of_not_clash distinct fun c hc => c.nodup_calledFields (fields c hc)
  exact ⟨nodup_iff, fun apart named => nodup_iff.mpr (UnionDecl.not_clash_of_no_extension apart named)⟩

/-- The fields and cases of this union have many underscores, and the names of its plan are distinct all the same. -/
def plainShape : UnionDecl :=
  ⟨"w::Shape", [],
    [⟨"no_case", 0, .none, [], [], ""⟩,
      ⟨"circle", 2, .labeled, [⟨"rim_color", .atom "int"⟩, ⟨"case_r", .atom "int"⟩], [.readable], "w::Circle"⟩,
      ⟨"segment", 2, .positional, [⟨"", .atom "int"⟩, ⟨"", .atom "int"⟩], [.writable], ""⟩,
      ⟨"slots", 1, .single, [⟨"", .node "std::vector" [.atom "int"]⟩], [], ""⟩]⟩

theorem union_names_nodup_iff_plain : (plainShape.cases.map (·.name)).Nodup ∧
    (∀ c ∈ plainShape.cases, c.FieldsDistinct) ∧
    ∃ plan, (planUnion .standard {} plainShape).outcome = .ok plan ∧
      plan.names = ["no_case_case_r", "circle_case_r", "circle_rim_color_r", "circle_case_r_r", "segment_case_w",
        "segment_0_w", "segment_1_w", "slots_case_r", "slots_case_w", "slots_case_fr", "slots_case_fw", "slots_case_fo",
        "slots_case_fr_at", "slots_case_fw_at"] ∧
      plan.names.Nodup ∧ ¬plainShape.Clash {} := by
  have distinct : (plainShape.cases.map (·.name)).Nodup := by decide
  have fields : ∀ c ∈ plainShape.cases, c.FieldsDistinct := by decide
  have planned : (planUnion .standard {} plainShape).outcome = .ok _ := rfl
  obtain ⟨nodup_iff, nodup_of⟩ := union_names_nodup_iff planned distinct fields
  have nodup := nodup_of (by decide) (by decide)
  exact ⟨distinct, fields, _, planned, by decide, nodup, nodup_iff.mp nodup⟩

/-- In this union a field is called `case`, and a field and another case have the names `rim_color` and `circle_rim`. -/
def rimmedShape : UnionDecl :=
  ⟨"w::Shape", [],
    [⟨"circle", 2, .labeled, [⟨"case", .atom "int"⟩, ⟨"rim_color", .atom "int"⟩], [], "w::Circle"⟩,
      ⟨"circle_rim", 1, .labeled, [⟨"color", .atom "int"⟩], [], "w::Rim"⟩]⟩

/-- Distinct cases with distinct fields are not enough. -/
theorem union_names_not_always_nodup : ¬∀ (catalog : Catalog) (config : Config) (t : UnionDecl) (plan : UnionPlan),
    (planUnion catalog config t).outcome = .ok plan → (t.cases.map (·.name)).Nodup →
    (∀ c ∈ t.cases, c.style = .positional ∨ c.style = .labeled → (c.fields.map (·.name)).Nodup) →
    plan.names.Nodup := by
  intro always
  have nodup := always .standard {} rimmedShape _ rfl (by decide) (by decide)
  exact absurd nodup (by decide)

end Accessors
