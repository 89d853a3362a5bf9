import Accessors.Member
import Accessors.Value.Width

/-! # Routes

An accessor that is put together leg by leg, where only each leg that was joined tells from which type the
next one starts. -/

namespace Accessors

/-- An accessor to a type that is known once the accessor is. -/
structure Route (R : Ty) where
  {target : Ty}
  path : Erased R target

/-- A leg by its name, with a position if it takes one. -/
structure Hop where
  leg : String
  position : Option Value
deriving DecidableEq, Repr

/-- Why a leg cannot be joined. -/
inductive RouteFault where
  | noSuchLeg
  | incomposable (flavors : Incomposable)
deriving DecidableEq, Repr

/-- The position that a number or a text stands for. A negative index is read as an unsigned number of 64
    bits, beyond every list. -/
def PositionType.position (t : PositionType) (v : Value) : Position :=
  match t, v with
  | .index, .int n => .index (UInt64.ofInt n).toNat
  | .index, v => .key v
  | .key type, v => .key (v.fitted type)

/-- Some named legs from each type. -/
abbrev Legs := (T : Ty) → List (String × Leg T)

/-- The accessor of a leg at a position, if it takes one. -/
def Leg.route? {R : Ty} (l : Leg R) (position : Option Value) : Option (Route R) :=
  match l, position with
  | .fixed e, _ => some ⟨e⟩
  | .positional t e, some v => some ⟨e (t.position v)⟩
  | .positional _ _, none => none

namespace Route

/-- The route of a single leg. -/
def leg? (legs : Legs) (T : Ty) (h : Hop) : Option (Route T) :=
  ((legs T).lookup h.leg).bind (·.route? h.position)

/-- A route followed by one more leg. -/
def join {R : Ty} (legs : Legs) (r : Route R) (h : Hop) : Except RouteFault (Route R) :=
  match leg? legs r.target h with
  | none => .error .noSuchLeg
  | some l =>
    match r.path.next l.path with
    | .ok e => .ok ⟨e⟩
    | .error u => .error (.incomposable u)

/-- A route followed by some more legs, the first of which has an index. A fault comes with the index of
    its leg. -/
def joinAll {R : Ty} (legs : Legs) (r : Route R) : List Hop → Nat → Except (Nat × RouteFault) (Route R)
  | [], _ => .ok r
  | h :: hs, i =>
    match join legs r h with
    | .ok r => joinAll legs r hs (i + 1)
    | .error e => .error (i, e)

/-- The route of some legs, joined from the left. -/
def ofHops (legs : Legs) (R : Ty) : List Hop → Except (Nat × RouteFault) (Route R)
  | [] => .error (0, .noSuchLeg)
  | h :: hs =>
    match leg? legs R h with
    | some r => joinAll legs r hs 1
    | none => .error (0, .noSuchLeg)

def toFailable {R : Ty} (r : Route R) : Route R := ⟨r.path.toFailable⟩

end Route
end Accessors
