import Accessors.Proofs.Plan.Items
import Accessors.Proofs.Plan.Unwrapped
import Mathlib.Data.List.Nodup

/-! # Names of constructors

A constructor is called after what it belongs to, with an ending that shows what it is. What it belongs to can have any
name, also one that ends like a constructor. But no ending is the end of another one, so a name is made of a base and
an ending in one way only. The names of a plan are therefore distinct as far as the bases are. -/

namespace Accessors

/-! ### Endings -/

/-- The ends of constructor names. -/
def nameEndings : List String := ["_r", "_w", "_o", "_fr", "_fw", "_fo", "_fr_at", "_fw_at"]

theorem eq_of_ending_suffix :
    ∀ e ∈ nameEndings, ∀ e' ∈ nameEndings, e.toList <:+ e'.toList → e = e' := by decide

theorem append_ending_inj {base base' e e' : String} (he : e ∈ nameEndings) (he' : e' ∈ nameEndings)
    (h : base ++ e = base' ++ e') : base = base' ∧ e = e' := by
  have same : e = e' := by
    have whole : base.toList ++ e.toList = base'.toList ++ e'.toList := by
      rw [← String.toList_append, h, String.toList_append]
    have tail : e.toList <:+ base'.toList ++ e'.toList := whole ▸ List.suffix_append _ _
    rcases List.suffix_or_suffix_of_suffix tail (List.suffix_append _ _) with below | below
    · exact eq_of_ending_suffix e he e' he' below
    · exact (eq_of_ending_suffix e' he' e he below).symm
  subst same
  exact ⟨(String.append_left_inj e).mp h, rfl⟩

/-! ### Groups of names -/

/-- Names that are made of one base. -/
structure NameGroup where
  base : String
  endings : List String

namespace NameGroup
variable {g h : NameGroup} {gs : List NameGroup}

def names (g : NameGroup) : List String := g.endings.map (g.base ++ ·)

/-- The endings are listed in order. -/
def Proper (g : NameGroup) : Prop := g.endings.Sublist nameEndings

/-- Two groups without a name in common. -/
def Apart (g h : NameGroup) : Prop := g.base = h.base → g.endings.Disjoint h.endings

instance : Std.Symm Apart := ⟨fun _ _ h same => List.disjoint_symm (h same.symm)⟩

theorem nodup_names (proper : g.Proper) : g.names.Nodup := by
  have nodup : g.endings.Nodup := List.Nodup.sublist proper (by decide)
  exact nodup.map_on fun e _ e' _ same => String.append_right_inj _ |>.mp same

theorem disjoint_names_iff (hg : g.Proper) (hh : h.Proper) : g.names.Disjoint h.names ↔ g.Apart h := by
  constructor
  · intro disjoint same e he he'
    exact disjoint (List.mem_map_of_mem he) (same ▸ List.mem_map_of_mem he')
  · intro apart name hn hn'
    obtain ⟨e, he, rfl⟩ := List.mem_map.mp hn
    obtain ⟨e', he', same⟩ := List.mem_map.mp hn'
    obtain ⟨base, rfl⟩ := append_ending_inj (hh.subset he') (hg.subset he) same
    exact apart base.symm he he'

/-- The names of some groups are distinct exactly if no two groups have a name in common. -/
theorem nodup_flatMap_names_iff (proper : ∀ g ∈ gs, g.Proper) :
    (gs.flatMap names).Nodup ↔ gs.Pairwise Apart := by
  rw [List.nodup_flatMap]
  constructor
  · rintro ⟨-, disjoint⟩
    exact disjoint.imp_of_mem fun hg hh h => (disjoint_names_iff (proper _ hg) (proper _ hh)).mp h
  · intro apart
    refine ⟨fun g hg => nodup_names (proper g hg), ?_⟩
    exact apart.imp_of_mem fun hg hh h => (disjoint_names_iff (proper _ hg) (proper _ hh)).mpr h

end NameGroup

/-! ### Constructors of members -/

/-- The ending that goes with a flavor, with or without a parameter. -/
def Flavor.ending (f : Flavor) (atPosition : Bool) : String := f.suffix ++ if atPosition then "_at" else ""

theorem constructorName_eq (base : String) (f : Flavor) (atPosition : Bool) :
    constructorName base f atPosition = base ++ f.ending atPosition := String.append_assoc

def Constructor.atPosition (k : Constructor) : Bool := k.parameter != .none

def Constructor.ending (k : Constructor) : String := k.flavor.ending k.atPosition

theorem names_eq_of_endings {base : String} {ks : List Constructor} (h : ∀ k ∈ ks, k.name = base ++ k.ending) :
    ks.map (·.name) = (ks.map Constructor.ending).map (base ++ ·) := by
  rw [List.map_map]
  exact List.map_congr_left h

/-- The constructors a member can have. -/
def memberKinds : List (Flavor × Bool) :=
  memberFlavors.map (·, false) ++ [(.failableReadable, true), (.failableWritable, true)]

theorem memberKind_of_ending :
    ∀ k ∈ memberKinds, ∀ k' ∈ memberKinds, k.1.ending k.2 = k'.1.ending k'.2 → k = k' := by decide

section
variable {name : String} {type : TypeExpr} {scope : Scope} {c : Classification} {k : Constructor}

theorem atPosition_of_plannedAt (h : k ∈ plannedAt name scope c) : k.atPosition = true := by
  obtain ⟨f, hf, rfl⟩ := List.mem_map.mp h
  have offered := (Bool.and_eq_true_iff.mp (List.mem_filter.mp hf).2).1
  exact bne_iff_ne.mpr (Shape.position_ne_none offered)

theorem endings_plannedWhole (name : String) (scope : Scope) (offered : FlavorSet) (value : Flavor → TypeExpr)
    (fs : List Flavor) : ((plannedWhole name scope offered value fs).map Constructor.ending).Sublist
      (fs.map (·.ending false)) := by
  rw [plannedWhole, List.map_map]
  exact List.filter_sublist.map _

theorem endings_plannedAt (name : String) (scope : Scope) (c : Classification) :
    ((plannedAt name scope c).map Constructor.ending).Sublist ["_fr_at", "_fw_at"] := by
  have parameter : (plannedAt name scope c).map Constructor.ending =
      (plannedAt name scope c).map fun k => k.flavor.ending true :=
    List.map_congr_left fun k hk => by rw [Constructor.ending, atPosition_of_plannedAt hk]
  rw [parameter, plannedAt, List.map_map]
  exact List.filter_sublist.map _

theorem name_of_plannedAt (h : k ∈ plannedAt name scope c) : k.name = name ++ k.ending := by
  have parameter := atPosition_of_plannedAt h
  obtain ⟨f, -, rfl⟩ := List.mem_map.mp h
  rw [Constructor.ending, parameter]
  exact constructorName_eq name f true

theorem name_of_plannedWhole {offered : FlavorSet} {value : Flavor → TypeExpr} {fs : List Flavor}
    (h : k ∈ plannedWhole name scope offered value fs) : k.name = name ++ k.ending := by
  obtain ⟨f, -, rfl⟩ := List.mem_map.mp h
  exact constructorName_eq name f false

theorem kind_of_memberConstructors (h : k ∈ memberConstructors name type scope c) :
    (k.flavor, k.atPosition) ∈ memberKinds ∧ k.name = name ++ k.ending := by
  rcases List.mem_append.mp h with whole | at_
  · refine ⟨List.mem_append_left _ ?_, name_of_plannedWhole whole⟩
    obtain ⟨f, hf, rfl⟩ := List.mem_map.mp whole
    exact List.mem_map_of_mem (List.mem_filter.mp hf).1
  · refine ⟨List.mem_append_right _ ?_, name_of_plannedAt at_⟩
    rw [atPosition_of_plannedAt at_]
    obtain ⟨f, hf, rfl⟩ := List.mem_map.mp at_
    rcases List.mem_pair.mp (List.mem_filter.mp hf).1 with rfl | rfl
    · exact .head _
    · exact .tail _ (.head _)

theorem endings_memberConstructors :
    ((memberConstructors name type scope c).map Constructor.ending).Sublist nameEndings := by
  rw [memberConstructors, List.map_append]
  exact (endings_plannedWhole name scope _ _ memberFlavors).append (endings_plannedAt name scope c)

end

/-! ### Reading a name -/

/-- The base of a name that has the ending. -/
def withoutEnding? (ending name : String) : Option String :=
  (name.toList.dropSuffix? ending.toList).map String.ofList

/-- What the name of a member's constructor tells: the member, the flavor, and whether there is a parameter. -/
def originOf? (name : String) : Option (String × Flavor × Bool) :=
  memberKinds.findSome? fun k => (withoutEnding? (k.1.ending k.2) name).map fun base => (base, k)

theorem withoutEnding?_eq_some {ending name base : String} :
    withoutEnding? ending name = some base ↔ name = base ++ ending := by
  simp only [withoutEnding?, Option.map_eq_some_iff, List.dropSuffix?_eq_some_iff, beq_iff_eq, exists_eq_right]
  constructor
  · rintro ⟨cs, whole, rfl⟩
    rw [← String.toList_inj, whole, String.toList_append, String.toList_ofList]
  · rintro rfl
    exact ⟨base.toList, String.toList_append, String.ofList_toList⟩

theorem originOf?_append (base : String) {f : Flavor} {atPosition : Bool} (listed : (f, atPosition) ∈ memberKinds) :
    originOf? (base ++ f.ending atPosition) = some (base, f, atPosition) := by
  have ending : ∀ k ∈ memberKinds, k.1.ending k.2 ∈ nameEndings := by decide
  have found : (originOf? (base ++ f.ending atPosition)).isSome = true := by
    refine List.findSome?_isSome_iff.mpr ⟨(f, atPosition), listed, ?_⟩
    rw [withoutEnding?_eq_some.mpr rfl]
    rfl
  obtain ⟨origin, ho⟩ := Option.isSome_iff_exists.mp found
  obtain ⟨k, hk, split⟩ := List.exists_of_findSome?_eq_some ho
  obtain ⟨base', rest, rfl⟩ := Option.map_eq_some_iff.mp split
  obtain ⟨rfl, same⟩ := append_ending_inj (ending _ listed) (ending k hk) (withoutEnding?_eq_some.mp rest)
  rw [ho, memberKind_of_ending (f, atPosition) listed k hk same]

example : originOf? "stock_fr_at_w" = some ("stock_fr_at", .writable, false) := by decide

/-! ### Whole composite types -/

namespace MemberPlan

/-- The names of a member's constructors. -/
def group (plan : MemberPlan) : NameGroup := ⟨plan.name, plan.constructors.map Constructor.ending⟩

end MemberPlan

/-- The names of all constructors of a plan. -/
def CompositePlan.names (plan : CompositePlan) : List String :=
  plan.members.flatMap fun m => m.constructors.map (·.name)

section
variable {catalog : Catalog} {config : Config} {owner : String} {typeScopes : List Scope}

theorem names_of_planMember {m : MemberDecl} {plan : MemberPlan}
    (h : (planMember catalog config owner typeScopes m).outcome = .ok plan) :
    plan.name = m.name ∧ plan.group.Proper ∧
      ∀ k ∈ plan.constructors, (k.flavor, k.atPosition) ∈ memberKinds ∧ k.name = plan.name ++ k.ending := by
  obtain ⟨own, ofType, c, -, -, -, rfl⟩ := outcome_planMember_eq_ok.mp h
  exact ⟨rfl, endings_memberConstructors, fun k hk => kind_of_memberConstructors hk⟩

/-- The names of a composite's plan are distinct if its members are, and each of them tells its member, its flavor and
    whether there is a parameter. -/
theorem composite_names_tell {t : CompositeDecl} {plan : CompositePlan}
    (planned : (planComposite catalog config t).outcome = .ok plan) (distinct : (t.members.map (·.name)).Nodup) :
    plan.names.Nodup ∧
      ∀ m ∈ plan.members, ∀ k ∈ m.constructors, originOf? k.name = some (m.name, k.flavor, k.parameter != .none) := by
  obtain ⟨-, plans, items, rfl⟩ := ((planComposite_inOrder catalog config t).succeeds plan).mp planned
  have bases : t.members.map (·.name) = plans.map (·.name) := by
    rw [← List.forall₂_eq_eq_eq, List.forall₂_map_left_iff, List.forall₂_map_right_iff]
    exact items.imp fun m p h => (names_of_planMember h).1.symm
  have each : ∀ p ∈ plans, p.group.Proper ∧
      ∀ k ∈ p.constructors, (k.flavor, k.atPosition) ∈ memberKinds ∧ k.name = p.name ++ k.ending := by
    intro p hp
    obtain ⟨i, hi, rfl⟩ := List.getElem_of_mem hp
    exact (names_of_planMember (items.get (items.length_eq ▸ hi) hi)).2
  constructor
  · have names : (CompositePlan.mk t.name plans).names = (plans.map MemberPlan.group).flatMap NameGroup.names := by
      rw [CompositePlan.names, List.flatMap_map]
      exact List.flatMap_congr fun p hp => names_eq_of_endings fun k hk => ((each p hp).2 k hk).2
    rw [names, NameGroup.nodup_flatMap_names_iff (List.forall_mem_map.mpr fun p hp => (each p hp).1), List.pairwise_map]
    rw [bases] at distinct
    exact (List.pairwise_map.mp distinct).imp fun apart same => absurd same apart
  · intro p hp k hk
    obtain ⟨kind, name⟩ := (each p hp).2 k hk
    rw [name]
    exact originOf?_append p.name kind

end

/-- The members of this type are called like constructors of each other. -/
def stockShop : CompositeDecl :=
  ⟨"w::Shop", [],
    [⟨"stock", .node "std::vector" [.atom "int"], []⟩,
      ⟨"stock_fr", .node "std::map" [.atom "int", .atom "w::Point"], [.readable]⟩,
      ⟨"stock_fr_at", .node "std::optional" [.atom "int"], [.all]⟩]⟩

theorem composite_names_tell_stock : (stockShop.members.map (·.name)).Nodup ∧
    ∃ plan, (planComposite .standard {} stockShop).outcome = .ok plan ∧
      plan.names = ["stock_r", "stock_w", "stock_o", "stock_fr", "stock_fw", "stock_fo", "stock_fr_at", "stock_fw_at",
        "stock_fr_r", "stock_fr_fr_at", "stock_fr_at_r", "stock_fr_at_w", "stock_fr_at_o", "stock_fr_at_fr",
        "stock_fr_at_fw", "stock_fr_at_fo"] ∧
      plan.names.Nodup ∧ ∀ m ∈ plan.members, ∀ k ∈ m.constructors,
        originOf? k.name = some (m.name, k.flavor, k.parameter != .none) := by
  have distinct : (stockShop.members.map (·.name)).Nodup := by decide
  have planned : (planComposite .standard {} stockShop).outcome = .ok _ := rfl
  exact ⟨distinct, _, planned, by decide, composite_names_tell planned distinct⟩

end Accessors
