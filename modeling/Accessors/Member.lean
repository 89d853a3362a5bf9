import Accessors.Accessor.Erased
import Accessors.Plan.Constructor
import Accessors.Scope
import Accessors.Ty.Unwrap

/-! # Members

The accessors of one member of a record. A member has an accessor of a flavor if the shape of its type
offers the flavor and its scope keeps it. -/

namespace Accessors

/-- A way on from a value of a type: an accessor, or one for each position. -/
inductive Leg (R : Ty) where
  | fixed {V : Ty} (path : Erased R V)
  | positional {V : Ty} (position : PositionType) (path : Position → Erased R V)

/-- Runs an owning function on the place of a variable that holds the root. -/
def inVariable {α : Type} (s : Store) (r : Value) (take : Store → Place → Store × α) : Store × α :=
  let (s, p) := s.push r
  let (s, a) := take s p
  (s.pop, a)

/-- A member of a record: the field at an index. -/
structure Member where
  name : String
  index : Nat
  type : Ty
  scope : Scope
deriving DecidableEq, Repr

namespace Member
variable (m : Member) (R : Ty)

/-- The member has an accessor of the flavor without a parameter. -/
def offers (f : Flavor) : Bool := m.type.capabilities.offered.contains f && m.scope.keeps f

/-- The member has an accessor of the flavor with a position. -/
def offersAt (f : Flavor) : Bool := m.type.capabilities.atPosition.contains f && m.scope.keeps f

/-- The flavors of all accessors of the member. -/
def emitted : FlavorSet :=
  (m.type.capabilities.offered ∪ m.type.capabilities.atPosition) ∩ m.scope.filter

/-- A copy of the member is a further owner of what its handle owns. -/
def sharable : Bool := m.type.copyable && m.type.traits.shape.involvesSharing

/-- Where the member is in its record. -/
def place (p : Place) : Place := p.item m.index

/-- Reads the whole member. -/
def r : Accessor .readable R m.type := .readable fun _ p => .done (m.place p)

/-- Writes the whole member. -/
def w : Accessor .writable R m.type := .writable fun _ p => .done (m.place p)

/-- Takes the whole member. -/
def o : Accessor .owned R m.type :=
  .owned fun s v => .done (inVariable s v fun s p => s.takeOut (m.place p))

/-- Reads the unwrapped member. -/
def fr : Accessor .failableReadable R m.type.unwrapped :=
  .failableReadable fun s p => .done (m.type.read s (m.place p))

/-- Writes the unwrapped member. -/
def fw : Accessor .failableWritable R m.type.unwrapped :=
  .failableWritable fun s p => .done (m.type.write s (m.place p))

/-- Takes the unwrapped member. -/
def fo : Accessor .failableOwned R m.type.unwrapped :=
  .failableOwned fun s v => .done (inVariable s v fun s p => m.type.take s (m.place p))

/-- Reads the element at a position. -/
def frAt (pos : Position) : Accessor .failableReadable R m.type.element :=
  .failableReadable fun s p => .done (m.type.readAt pos s (m.place p))

/-- Writes the element at a position. -/
def fwAt (pos : Position) : Accessor .failableWritable R m.type.element :=
  .failableWritable fun s p => .done (m.type.writeAt pos s (m.place p))

/-- The accessor of a flavor without a parameter; members have no case accessors. -/
def accessor? (f : Flavor) : Option (Leg R) :=
  if m.offers f then
    match f with
    | .readable => some (.fixed (.of (m.r R)))
    | .writable => some (.fixed (.of (m.w R)))
    | .failableReadable => some (.fixed (.of (m.fr R)))
    | .failableWritable => some (.fixed (.of (m.fw R)))
    | .owned => some (.fixed (.of (m.o R)))
    | .failableOwned => some (.fixed (.of (m.fo R)))
    | .caseReadable | .caseWritable => none
  else none

/-- The accessor of a flavor with a position. -/
def accessorAt? (f : Flavor) : Option (Leg R) :=
  if m.offersAt f then
    match f, m.type.position? with
    | .failableReadable, some t => some (.positional t fun pos => .of (m.frAt R pos))
    | .failableWritable, some t => some (.positional t fun pos => .of (m.fwAt R pos))
    | _, _ => none
  else none

/-- The named accessors of the member: those without a parameter, then those with a position, each in
    the order of the flavors. -/
def legs : List (String × Leg R) :=
  (Flavor.all.filterMap fun f => (m.accessor? R f).map fun l => (constructorName m.name f, l))
    ++ Flavor.all.filterMap fun f => (m.accessorAt? R f).map fun l => (constructorName m.name f true, l)

end Member
end Accessors
