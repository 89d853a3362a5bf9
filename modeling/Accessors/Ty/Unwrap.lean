import Accessors.Ty

/-! # Unwrapping in one step

The steps from a value of a declared type to the value inside. For two wrappers that merge, one step
goes through both: the outer wrapper's step, and then the inner wrapper's. A position is given to
whichever of the two takes one. A plain value is its own inside, and a shared guarded value is entered
only as far as the guard. -/

namespace Accessors.Ty

/-- The place of the value inside, for reading. -/
def read (t : Ty) (s : Store) (p : Place) : Option Place :=
  match t with
  | plain _ => some p
  | wrap w _ =>
    match t.mergedPair? with
    | some (_, v) =>
      if t.traits.shape.sharedGuard then w.read s p else (w.read s p).bind (v.read s)
    | none => w.read s p

def write (t : Ty) (s : Store) (p : Place) : Option Place :=
  match t with
  | plain _ => some p
  | wrap w _ =>
    match t.mergedPair? with
    | some (_, v) =>
      if t.traits.shape.sharedGuard then w.write s p else (w.write s p).bind (v.write s)
    | none => w.write s p

/-- Takes the value inside a value that is itself in no variable. -/
def takeLoose (w : Wrapper) (s : Store) (v : Value) : Store × Option Value :=
  let (s, p) := s.push v
  let (s, r) := w.take s p
  (s.pop, r)

/-- The value inside, taken away. -/
def take (t : Ty) (s : Store) (p : Place) : Store × Option Value :=
  match t with
  | plain _ => ((s.takeOut p).1, some (s.takeOut p).2)
  | wrap w _ =>
    match t.mergedPair? with
    | some (_, v) =>
      match w.take s p with
      | (s, some m) => takeLoose v s m
      | (s, none) => (s, none)
    | none => w.take s p

/-- The place of the element at a position, for reading. -/
def readAt (t : Ty) (pos : Position) (s : Store) (p : Place) : Option Place :=
  match t with
  | plain _ => none
  | wrap w _ =>
    match t.mergedPair? with
    | some (_, v) =>
      if w.positional then (w.readAt pos s p).bind (v.read s) else (w.read s p).bind (v.readAt pos s)
    | none => w.readAt pos s p

def writeAt (t : Ty) (pos : Position) (s : Store) (p : Place) : Option Place :=
  match t with
  | plain _ => none
  | wrap w _ =>
    match t.mergedPair? with
    | some (_, v) =>
      if w.positional then (w.writeAt pos s p).bind (v.write s) else (w.write s p).bind (v.writeAt pos s)
    | none => w.writeAt pos s p

/-- Which element of a hash set comes first is not known, unless it is the only one. -/
def firstUnknown (t : Ty) (s : Store) (p : Place) : Bool :=
  match t with
  | wrap .hashSet _ => 1 < (s.items p).length
  | _ => false

end Accessors.Ty
