import Accessors.Classification
import Accessors.Shape.Capabilities

/-! # Planned constructors

An accessor constructor as the planner describes it: its name, its flavor, what parameter it takes, and
the type of the value it reaches. The name is the base name with the flavor's suffix, and `_at` behind
it when there is a parameter. -/

namespace Accessors

/-- The name of an accessor constructor. -/
def constructorName (base : String) (f : Flavor) (atPosition : Bool := false) : String :=
  base ++ f.suffix ++ (if atPosition then "_at" else "")

/-- One accessor constructor. -/
structure Constructor where
  name : String
  flavor : Flavor
  parameter : PositionKind
  value : TypeExpr
deriving DecidableEq, Repr

namespace Constructor

/-- The written form of a constructor. -/
def text (c : Constructor) : String :=
  c.name ++ ": " ++ c.flavor.name
    ++ (if c.parameter = .none then "" else " at " ++ c.parameter.name)
    ++ " -> " ++ c.value.text

/-- The record that announces a constructor of a site. -/
def record (site : String) (c : Constructor) : Record := ⟨.debug, site ++ ": " ++ c.text⟩

end Constructor

/-- What a classification offers. -/
def Classification.capabilities (c : Classification) : Capabilities := c.shape.capabilities c.sharing

/-- The type of the value that an unwrapping constructor reaches. A plain type is its own value. The
    step into a shared guarded value stops at the guarded value, which is the handle's first argument:
    its payload is out of reach without the lock. -/
def Classification.unwrapped (c : Classification) (declared : TypeExpr) : TypeExpr :=
  if c.shape = .plain then declared
  else if c.shape.sharedGuard then declared.args.headD c.inner
  else c.inner

/-- The constructors without a parameter among the listed flavors. -/
def plannedWhole (base : String) (scope : Scope) (offered : FlavorSet) (value : Flavor → TypeExpr)
    (fs : List Flavor) : List Constructor :=
  (fs.filter fun f => offered.contains f && scope.keeps f).map fun f =>
    ⟨constructorName base f, f, .none, value f⟩

/-- The constructors with a parameter. -/
def plannedAt (base : String) (scope : Scope) (c : Classification) : List Constructor :=
  ([Flavor.failableReadable, Flavor.failableWritable].filter fun f =>
      c.capabilities.atPosition.contains f && scope.keeps f).map fun f =>
    ⟨constructorName base f true, f, c.capabilities.position, c.inner⟩

end Accessors
