import Accessors.Classification

/-! # Scope annotations

A site, which is a type, a member or a case, may carry one scope annotation. A member's own annotation
goes before its type's, and that before the configured default. The type's site is checked first. -/

namespace Accessors

/-- The annotation of a site. More than one is a defect. -/
def siteScope (annotations : List Scope) (site : String) : Planning (Option Scope) :=
  match annotations with
  | [] => .ok none
  | [s] => .ok (some s)
  | _ :: _ :: _ => .fail (.manyAnnotations site annotations)

/-- The scope in force at a site inside a type. -/
def resolveScope (own ofType : List Scope) (default : Scope) (site : String) : Planning Scope :=
  (siteScope ofType ("the enclosing type of " ++ site)).andThen fun typeScope =>
    (siteScope own site).andThen fun ownScope =>
      .ok (ownScope.getD (typeScope.getD default))

/-- How a member or case is called: after its owner, if it has one. -/
def siteName (owner name : String) : String :=
  if owner.isEmpty then name else owner ++ "::" ++ name

end Accessors
