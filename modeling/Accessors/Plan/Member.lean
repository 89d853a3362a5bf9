import Accessors.Plan.Constructor
import Accessors.Scope.Annotations

/-! # Plans of members

A member gets the constructors that the shape of its type offers and its scope keeps: first those of
the whole member and of the unwrapped value, then those at a position. -/

namespace Accessors

/-- A member of a composite type as it is declared. -/
structure MemberDecl where
  name : String
  type : TypeExpr
  scopes : List Scope
deriving DecidableEq, Repr

/-- The constructors planned for a member. -/
structure MemberPlan where
  name : String
  scope : Scope
  shape : Classification
  constructors : List Constructor
deriving DecidableEq, Repr

/-- The flavors of a member in the order in which they are planned. -/
def memberFlavors : List Flavor :=
  [.readable, .writable, .owned, .failableReadable, .failableWritable, .failableOwned]

/-- The type a member's constructor of a flavor reaches: the declared type for a total flavor, the
    unwrapped one for a failable flavor. -/
def Classification.memberValue (c : Classification) (declared : TypeExpr) (f : Flavor) : TypeExpr :=
  if f.total then declared else c.unwrapped declared

/-- The constructors of a member whose type is classified as `c`. -/
def memberConstructors (name : String) (type : TypeExpr) (scope : Scope) (c : Classification) :
    List Constructor :=
  plannedWhole name scope c.capabilities.offered (c.memberValue type) memberFlavors
    ++ plannedAt name scope c

/-- The plan of a member of a type annotated with `typeScopes`. -/
def planMember (catalog : Catalog) (config : Config) (owner : String) (typeScopes : List Scope)
    (m : MemberDecl) : Planning MemberPlan :=
  let site := siteName owner m.name
  (resolveScope m.scopes typeScopes config.defaultScope site).andThen fun scope =>
    (classify catalog config m.type).andThen fun c =>
      let constructors := memberConstructors m.name m.type scope c
      (Logged.notes config.logLevel (constructors.map (Constructor.record site))).andThen fun _ =>
        .ok ⟨m.name, scope, c, constructors⟩

end Accessors
