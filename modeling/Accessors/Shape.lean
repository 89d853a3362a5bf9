import Accessors.Named

/-! # Wrapper shapes

What kind of wrapper a type is. Sixteen base shapes name one wrapper each, ten combinations name a
wrapper around another one that is handled in one step, and every other type is plain. -/

namespace Accessors

/-- The kind of wrapper a type is. -/
inductive Shape where
  | plain
  | optional
  | indirection
  | sharedOwnership
  | sequence
  | hashMapping
  | orderedMapping
  | hashSet
  | orderedSet
  | deque
  | linkedSequence
  | priorityQueue
  | successFailure
  | mutexGuarded
  | rwGuarded
  | weakBackReference
  | tagged
  | optionalOfIndirection
  | indirectionOfOptional
  | optionalOfShared
  | sharedOfOptional
  | optionalOfSequence
  | sequenceOfOptional
  | optionalOfHashMapping
  | hashMappingOfOptional
  | sharedOfMutexGuarded
  | sharedOfRwGuarded
deriving DecidableEq, Repr

/-- How the owners of a shared value are counted. -/
inductive Sharing where
  | none
  | atomic
  | threadLocal
deriving DecidableEq, Repr

namespace Sharing

def name : Sharing → String
  | none => "none"
  | atomic => "atomic"
  | threadLocal => "local"

end Sharing

namespace Shape

def name : Shape → String
  | plain => "plain"
  | optional => "optional"
  | indirection => "indirection"
  | sharedOwnership => "shared_ownership"
  | sequence => "sequence"
  | hashMapping => "hash_mapping"
  | orderedMapping => "ordered_mapping"
  | hashSet => "hash_set"
  | orderedSet => "ordered_set"
  | deque => "deque"
  | linkedSequence => "linked_sequence"
  | priorityQueue => "priority_queue"
  | successFailure => "success_failure"
  | mutexGuarded => "mutex_guarded"
  | rwGuarded => "rw_guarded"
  | weakBackReference => "weak_back_reference"
  | tagged => "tagged"
  | optionalOfIndirection => "optional_of_indirection"
  | indirectionOfOptional => "indirection_of_optional"
  | optionalOfShared => "optional_of_shared"
  | sharedOfOptional => "shared_of_optional"
  | optionalOfSequence => "optional_of_sequence"
  | sequenceOfOptional => "sequence_of_optional"
  | optionalOfHashMapping => "optional_of_hash_mapping"
  | hashMappingOfOptional => "hash_mapping_of_optional"
  | sharedOfMutexGuarded => "shared_of_mutex_guarded"
  | sharedOfRwGuarded => "shared_of_rw_guarded"

/-- The shapes in their listing order. -/
def all : List Shape :=
  [plain, optional, indirection, sharedOwnership, sequence, hashMapping, orderedMapping, hashSet,
    orderedSet, deque, linkedSequence, priorityQueue, successFailure, mutexGuarded, rwGuarded,
    weakBackReference, tagged, optionalOfIndirection, indirectionOfOptional, optionalOfShared,
    sharedOfOptional, optionalOfSequence, sequenceOfOptional, optionalOfHashMapping,
    hashMappingOfOptional, sharedOfMutexGuarded, sharedOfRwGuarded]

instance : Named Shape where
  first := plain
  name := name
  kind := "wrapper shape"
  ofName? word := all.find? (·.name == word)

/-- The combination that an outer wrapper forms with the wrapper right inside it. Pairs that are not
    listed do not merge. -/
def combine : Shape → Shape → Option Shape
  | optional, indirection => some optionalOfIndirection
  | optional, sharedOwnership => some optionalOfShared
  | optional, sequence => some optionalOfSequence
  | optional, hashMapping => some optionalOfHashMapping
  | indirection, optional => some indirectionOfOptional
  | sharedOwnership, optional => some sharedOfOptional
  | sharedOwnership, mutexGuarded => some sharedOfMutexGuarded
  | sharedOwnership, rwGuarded => some sharedOfRwGuarded
  | sequence, optional => some sequenceOfOptional
  | hashMapping, optional => some hashMappingOfOptional
  | _, _ => none

/-- The outer wrapper of a combination; any other shape is its own. -/
def outer : Shape → Shape
  | optionalOfIndirection | optionalOfShared | optionalOfSequence | optionalOfHashMapping => optional
  | indirectionOfOptional => indirection
  | sharedOfOptional | sharedOfMutexGuarded | sharedOfRwGuarded => sharedOwnership
  | sequenceOfOptional => sequence
  | hashMappingOfOptional => hashMapping
  | s => s

/-- The inner wrapper of a combination. -/
def inner : Shape → Option Shape
  | optionalOfIndirection => some indirection
  | optionalOfShared => some sharedOwnership
  | optionalOfSequence => some sequence
  | optionalOfHashMapping => some hashMapping
  | indirectionOfOptional | sharedOfOptional | sequenceOfOptional | hashMappingOfOptional => some optional
  | sharedOfMutexGuarded => some mutexGuarded
  | sharedOfRwGuarded => some rwGuarded
  | _ => none

def isCombination (s : Shape) : Bool := s.inner.isSome

/-- A shared handle is one of the wrappers. -/
def involvesSharing : Shape → Bool
  | sharedOwnership | optionalOfShared | sharedOfOptional | sharedOfMutexGuarded | sharedOfRwGuarded => true
  | _ => false

/-- A shared handle to a guarded value: its payload is out of reach without the lock. -/
def sharedGuard : Shape → Bool
  | sharedOfMutexGuarded | sharedOfRwGuarded => true
  | _ => false

end Shape
end Accessors
