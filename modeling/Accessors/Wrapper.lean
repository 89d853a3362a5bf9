import Accessors.Shape
import Accessors.Store
import Accessors.TypeExpr

/-! # Wrappers

The wrappers that are known when a program is written, and the single steps each of them allows: to the
place of the value inside for reading or for writing, to the place of the element at a position, and the
taking away of the value inside. A step that leads nowhere gives nothing.

A pointee with more than one owner is lent for reading only, and taking it copies it. -/

namespace Accessors

/-- A wrapper, with those of its type arguments that are not its payload. -/
inductive Wrapper where
  | optional
  | unique
  | shared
  | localShared
  | vector
  | deque
  | linkedList
  | priorityQueue
  | hashMap (key : TypeExpr)
  | orderedMap (key : TypeExpr)
  | hashSet
  | orderedSet
  | result (error : TypeExpr)
  | mutexGuarded
  | rwGuarded
  | weak
  | tagged (tag : TypeExpr)
deriving DecidableEq, Repr

/-- The index of an element, or its key. -/
inductive Position where
  | index (i : Nat)
  | key (k : Value)
deriving DecidableEq, Repr

/-- What kind of position a container takes: an index or a key of some type. -/
inductive PositionType where
  | index
  | key (type : TypeExpr)
deriving DecidableEq, Repr

namespace Store

/-- The place of the one value inside, if there is one. -/
def inside? (s : Store) (p : Place) : Option Place :=
  match s.get? p with
  | some (.holding _) => some p.inside
  | _ => none

/-- The cell that the handle at a place owns. -/
def handle? (s : Store) (p : Place) : Option Nat :=
  match s.get? p with
  | some (.shared c) => some c
  | _ => none

/-- The items at a place. -/
def items (s : Store) (p : Place) : List Value :=
  match s.get? p with
  | some (.items vs) => vs
  | _ => []

/-- The place of the item at an index, if there is one. -/
def item? (s : Store) (p : Place) (i : Nat) : Option Place :=
  if i < (s.items p).length then some (p.item i) else none

/-- The place of the value bound to a key. -/
def bound? (s : Store) (p : Place) (k : Value) : Option Place :=
  ((s.items p).findIdx? fun v => match v with | .entry l _ => l == k | _ => false).map fun i =>
    (p.item i).inside

/-- The place of the element equal to a key. -/
def element? (s : Store) (p : Place) (k : Value) : Option Place :=
  ((s.items p).findIdx? fun v => v == k).map p.item

end Store

namespace Wrapper

def shape : Wrapper → Shape
  | optional => .optional
  | unique => .indirection
  | shared | localShared => .sharedOwnership
  | vector => .sequence
  | deque => .deque
  | linkedList => .linkedSequence
  | priorityQueue => .priorityQueue
  | hashMap _ => .hashMapping
  | orderedMap _ => .orderedMapping
  | hashSet => .hashSet
  | orderedSet => .orderedSet
  | result _ => .successFailure
  | mutexGuarded => .mutexGuarded
  | rwGuarded => .rwGuarded
  | weak => .weakBackReference
  | tagged _ => .tagged

/-- How the owners of the pointee are counted. -/
def sharing : Wrapper → Sharing
  | shared => .atomic
  | localShared => .threadLocal
  | _ => .none

def name : Wrapper → String
  | optional => "std::optional"
  | unique => "std::unique_ptr"
  | shared => "std::shared_ptr"
  | localShared => "boost::local_shared_ptr"
  | vector => "std::vector"
  | deque => "std::deque"
  | linkedList => "std::list"
  | priorityQueue => "std::priority_queue"
  | hashMap _ => "std::unordered_map"
  | orderedMap _ => "std::map"
  | hashSet => "std::unordered_set"
  | orderedSet => "std::set"
  | result _ => "boost::outcome_v2::result"
  | mutexGuarded => "kpath::mutex_guarded"
  | rwGuarded => "kpath::rw_guarded"
  | weak => "std::weak_ptr"
  | tagged _ => "kpath::tagged"

/-- The written arguments of a wrapper around a payload. -/
def arguments (w : Wrapper) (payload : TypeExpr) : List TypeExpr :=
  match w with
  | hashMap k | orderedMap k => [k, payload]
  | result t | tagged t => [payload, t]
  | _ => [payload]

/-- The wrapper with a written name and arguments, and the payload among the arguments. -/
def ofWritten? (name : String) (args : List TypeExpr) : Option (Wrapper × TypeExpr) :=
  match name, args with
  | "std::optional", [t] => some (optional, t)
  | "std::unique_ptr", [t] => some (unique, t)
  | "std::shared_ptr", [t] => some (shared, t)
  | "boost::local_shared_ptr", [t] => some (localShared, t)
  | "std::vector", [t] => some (vector, t)
  | "std::deque", [t] => some (deque, t)
  | "std::list", [t] => some (linkedList, t)
  | "std::priority_queue", [t] => some (priorityQueue, t)
  | "std::unordered_map", [k, t] => some (hashMap k, t)
  | "std::map", [k, t] => some (orderedMap k, t)
  | "std::unordered_set", [t] => some (hashSet, t)
  | "std::set", [t] => some (orderedSet, t)
  | "boost::outcome_v2::result", [t, e] => some (result e, t)
  | "kpath::mutex_guarded", [t] => some (mutexGuarded, t)
  | "kpath::rw_guarded", [t] => some (rwGuarded, t)
  | "std::weak_ptr", [t] => some (weak, t)
  | "kpath::tagged", [t, g] => some (tagged g, t)
  | _, _ => none

theorem ofWritten?_name (w : Wrapper) (t : TypeExpr) :
    ofWritten? w.name (w.arguments t) = some (w, t) := by
  cases w <;> rfl

theorem sizeOf_of_ofWritten? {n : String} {as : List TypeExpr} {w : Wrapper} {t : TypeExpr}
    (h : ofWritten? n as = some (w, t)) : sizeOf t < sizeOf (TypeExpr.node n as) := by
  unfold ofWritten? at h
  split at h <;> simp at h <;> obtain ⟨-, rfl⟩ := h <;> simp <;> omega

/-- The kind of position a container takes. The key of a set is its element. -/
def position? (w : Wrapper) (payload : TypeExpr) : Option PositionType :=
  match w with
  | vector | deque | linkedList => some .index
  | hashMap k | orderedMap k => some (.key k)
  | hashSet | orderedSet => some (.key payload)
  | _ => none

/-- The wrapper takes a position. -/
def positional : Wrapper → Bool
  | vector | deque | linkedList | hashMap _ | orderedMap _ | hashSet | orderedSet => true
  | _ => false

/-- The wrapper always has a value inside. -/
def total : Wrapper → Bool
  | tagged _ => true
  | _ => false

/-- The wrapper lends the value inside for reading, and gives it away. -/
def lends : Wrapper → Bool
  | hashMap _ | orderedMap _ | mutexGuarded | rwGuarded | weak => false
  | _ => true

/-- The wrapper lends the value inside for writing. -/
def lendsMut : Wrapper → Bool
  | optional | unique | shared | localShared | vector | deque | linkedList | tagged _ => true
  | _ => false

/-- The wrapper lends the element at a position for writing. -/
def lendsMutAt : Wrapper → Bool
  | vector | deque | linkedList | hashMap _ | orderedMap _ => true
  | _ => false

/-- The place of the value inside, for reading. -/
def read (w : Wrapper) (s : Store) (p : Place) : Option Place :=
  match w with
  | optional | unique | result _ | tagged _ => s.inside? p
  | shared | localShared => (s.handle? p).map Place.cell
  | vector | deque | linkedList | priorityQueue | hashSet | orderedSet => s.item? p 0
  | hashMap _ | orderedMap _ | mutexGuarded | rwGuarded | weak => none

/-- The place of the value inside, for writing. Only a sole owner writes its pointee. -/
def write (w : Wrapper) (s : Store) (p : Place) : Option Place :=
  match w with
  | optional | unique | tagged _ => s.inside? p
  | shared | localShared =>
    (s.handle? p).bind fun c => if s.owners c = 1 then some (.cell c) else none
  | vector | deque | linkedList => s.item? p 0
  | _ => none

/-- The place of the element at a position, for reading. -/
def readAt (w : Wrapper) (pos : Position) (s : Store) (p : Place) : Option Place :=
  match w, pos with
  | vector, .index i | deque, .index i | linkedList, .index i => s.item? p i
  | hashMap _, .key k | orderedMap _, .key k => s.bound? p k
  | hashSet, .key k | orderedSet, .key k => s.element? p k
  | _, _ => none

/-- The place of the element at a position, for writing. -/
def writeAt (w : Wrapper) (pos : Position) (s : Store) (p : Place) : Option Place :=
  match w, pos with
  | vector, .index i | deque, .index i | linkedList, .index i => s.item? p i
  | hashMap _, .key k | orderedMap _, .key k => s.bound? p k
  | _, _ => none

/-- The value at a place, if the place is known, taken away. -/
def takeFrom (s : Store) : Option Place → Store × Option Value
  | some q => ((s.takeOut q).1, some (s.takeOut q).2)
  | none => (s, none)

/-- The value inside, taken away. The pointee of one of several owners is copied, and so is the first
    item of a queue, which lends its items for reading only. -/
def take (w : Wrapper) (s : Store) (p : Place) : Store × Option Value :=
  match w with
  | optional | unique | result _ | tagged _ => takeFrom s (s.inside? p)
  | shared | localShared =>
    match s.handle? p with
    | none => (s, none)
    | some c =>
      if s.owners c = 1 then takeFrom s (some (.cell c)) else (s, some (s.value (.cell c)))
  | vector | deque | linkedList | hashSet | orderedSet => takeFrom s (s.item? p 0)
  | priorityQueue => (s, (s.item? p 0).map s.value)
  | hashMap _ | orderedMap _ | mutexGuarded | rwGuarded | weak => (s, none)

end Wrapper
end Accessors
