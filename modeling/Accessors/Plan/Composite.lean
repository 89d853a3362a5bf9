import Accessors.Plan.Case
import Accessors.Plan.Member

/-! # Plans of whole types

A composite type is planned member by member and a union case by case, in the order of declaration and
up to the first defect. The annotations of the type itself are checked before anything else. -/

namespace Accessors

/-- A composite type as it is declared. -/
structure CompositeDecl where
  name : String
  scopes : List Scope
  members : List MemberDecl
deriving DecidableEq, Repr

/-- The plans of the members of a composite type. -/
structure CompositePlan where
  name : String
  members : List MemberPlan
deriving DecidableEq, Repr

/-- A union as it is declared. -/
structure UnionDecl where
  name : String
  scopes : List Scope
  cases : List CaseDecl
deriving DecidableEq, Repr

structure UnionPlan where
  name : String
  cases : List CasePlan
deriving DecidableEq, Repr

/-- The record that closes the plan of a type. -/
def plannedRecord (count : Nat) (what type : String) : Record :=
  ⟨.info, "planned " ++ toString count ++ " " ++ what ++ " of " ++ type⟩

def planComposite (catalog : Catalog) (config : Config) (t : CompositeDecl) : Planning CompositePlan :=
  (siteScope t.scopes t.name).andThen fun _ =>
    (Logged.each (planMember catalog config t.name t.scopes) t.members).andThen fun members =>
      (Logged.note config.logLevel (plannedRecord members.length "members" t.name)).andThen fun _ =>
        .ok ⟨t.name, members⟩

def planUnion (catalog : Catalog) (config : Config) (t : UnionDecl) : Planning UnionPlan :=
  (siteScope t.scopes t.name).andThen fun _ =>
    (Logged.each (planCase catalog config t.name t.scopes) t.cases).andThen fun cases =>
      (Logged.note config.logLevel (plannedRecord cases.length "cases" t.name)).andThen fun _ =>
        .ok ⟨t.name, cases⟩

end Accessors
