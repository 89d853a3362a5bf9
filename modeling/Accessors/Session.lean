import Accessors.Accessor.Erased

/-! # Sessions

The use of accessors on one root over time. The root is the first variable of a store, and the variables
after it keep copies: further owners of the cells that the root's handles own. A root is taken either as
it is, so that the variable is left without it, or as a copy. -/

namespace Accessors.Session

def root : Place := .slot 0

/-- A session with a root and nothing else. -/
def start (v : Value) (s : Store) : Store := { s with slots := [v] }

/-- The kept copies, oldest first. -/
def kept (s : Store) : List Value := s.slots.drop 1

def keep (s : Store) (p : Place) : Store := (s.push (s.value p)).1

/-- Drops the latest kept copy. -/
def drop (s : Store) : Store := if s.slots.length ≤ 1 then s else s.pop

/-- Drops all kept copies. -/
def dropAll (s : Store) : Store := { s with slots := s.slots.take 1 }

/-- The owners outside the session let go of their cells. -/
def expire (s : Store) : Store := { s with held := [] }

variable {R V : Ty}

/-- The value an accessor finds in the root. -/
def read (e : Erased R V) (s : Store) : Except Unsupported (Run (Option Value)) :=
  (e.get s root).map (·.map (·.map s.value))

/-- Puts a value, if one is given, where an accessor finds one. -/
def put (s : Store) (v : Option Value) (q : Place) : Store :=
  match v with
  | some v => s.set q v
  | none => s

/-- Writes a value, if one is given, where an accessor finds one in the root. The result is what is
    there afterwards. -/
def write (e : Erased R V) (v : Option Value) (s : Store) :
    Except Unsupported (Run (Store × Option Value)) :=
  (e.getMut s root).map fun r => r.map fun
    | some q => (put s v q, some ((put s v q).value q))
    | none => (s, none)

/-- The root as it is given to an accessor that takes a value out of it: itself, or a copy. -/
def give (moved : Bool) (s : Store) : Store × Value :=
  if moved then s.takeOut root else (s, s.value root)

/-- The value an accessor takes out of the root, or out of a copy of it. -/
def take (e : Erased R V) (moved : Bool) (s : Store) :
    Except Unsupported (Run (Store × Option Value)) :=
  e.getOwned (give moved s).1 (give moved s).2

/-- The root that an accessor builds around a value takes the place of the one before. -/
def embed (e : Erased R V) (v : Value) (s : Store) : Except Unsupported (Run Store) :=
  (e.embed v).map (·.map (s.set root))

end Accessors.Session
