import Accessors.Flavor.Set
import Accessors.Shape

/-! # What a shape offers

The flavors for which a member of a given shape gets accessors, before its scope is applied, and what
the accessors with a parameter take. Both the planner and the declared accessors read this table. -/

namespace Accessors

/-- What an accessor with a parameter takes. -/
inductive PositionKind where
  | none
  | index
  | key
  | element
deriving DecidableEq, Repr

def PositionKind.name : PositionKind → String
  | none => "none"
  | index => "index"
  | key => "key"
  | element => "element"

/-- The flavors a shape offers without a parameter, those it offers at a position, and the kind of
    that position. -/
structure Capabilities where
  offered : FlavorSet
  atPosition : FlavorSet
  position : PositionKind
deriving DecidableEq

namespace Capabilities

/-- Access to the member as it is declared. -/
def whole : FlavorSet := .ofList [.readable, .writable, .owned]

/-- Every flavor a member can have. -/
def every : FlavorSet := whole ∪ .ofList [.failableReadable, .failableWritable, .failableOwned]

/-- A shared handle is never taken out of its root: taking goes through its pointee. -/
def handle : FlavorSet := .ofList [.readable, .writable]

/-- Reading and writing one place of a container. -/
def place : FlavorSet := .ofList [.failableReadable, .failableWritable]

/-- Reading an element and taking it away. -/
def readTake : FlavorSet := .ofList [.failableReadable, .failableOwned]

/-- Writing the pointee of a handle is offered only where owners are counted locally. -/
def pointeeWrite (sharing : Sharing) : FlavorSet :=
  if sharing = .threadLocal then .ofList [.failableWritable] else ∅

end Capabilities

open Capabilities

/-- What a shape offers; the sharing mode matters only to shapes with a shared handle. -/
def Shape.capabilities (s : Shape) (sharing : Sharing) : Capabilities :=
  match s with
  | .plain | .optional | .indirection | .tagged | .optionalOfIndirection | .indirectionOfOptional =>
    ⟨every, ∅, .none⟩
  | .sharedOwnership | .sharedOfOptional => ⟨handle ∪ readTake ∪ pointeeWrite sharing, ∅, .none⟩
  | .optionalOfShared => ⟨whole ∪ readTake ∪ pointeeWrite sharing, ∅, .none⟩
  | .sequence | .deque | .linkedSequence | .optionalOfSequence | .sequenceOfOptional =>
    ⟨every, place, .index⟩
  | .hashMapping | .orderedMapping | .optionalOfHashMapping | .hashMappingOfOptional =>
    ⟨whole, place, .key⟩
  | .hashSet | .orderedSet => ⟨whole ∪ readTake, .ofList [.failableReadable], .element⟩
  | .priorityQueue | .successFailure => ⟨whole ∪ readTake, ∅, .none⟩
  | .mutexGuarded | .rwGuarded => ⟨handle, ∅, .none⟩
  | .sharedOfMutexGuarded | .sharedOfRwGuarded =>
    ⟨handle ∪ .ofList [.failableReadable] ∪ pointeeWrite sharing, ∅, .none⟩
  | .weakBackReference => ⟨.ofList [.readable], ∅, .none⟩

end Accessors
