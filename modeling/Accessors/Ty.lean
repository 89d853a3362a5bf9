import Accessors.Shape.Capabilities
import Accessors.Wrapper

/-! # Declared types

A declared type is a plain name or a wrapper around a declared type. Its traits are read off its
outermost wrappers: a wrapper merges with the wrapper right inside it if the two form a combination, and
a payload that is a combination and does not merge is opaque. -/

namespace Accessors

/-- A declared type. -/
inductive Ty where
  | plain (name : String)
  | wrap (w : Wrapper) (payload : Ty)
deriving DecidableEq, Repr

/-- What a declared type is: its shape, how its owners are counted, whether its two outermost wrappers
    merge, whether its payload is opaque, and the type inside. -/
structure Traits where
  shape : Shape
  sharing : Sharing
  merged : Bool
  isOpaque : Bool
  inner : Ty
deriving DecidableEq, Repr

namespace Ty

/-- The type as it is written. -/
def describe : Ty → TypeExpr
  | plain n => .atom n
  | wrap w t => .node w.name (w.arguments t.describe)

/-- The declared type with the given written form: known wrappers around a plain name. -/
def ofWritten? : TypeExpr → Option Ty
  | .node n as =>
    match _h : Wrapper.ofWritten? n as with
    | some (w, t) => (ofWritten? t).map (wrap w)
    | none => if as.isEmpty then some (plain n) else none
termination_by t => sizeOf t
decreasing_by exact Wrapper.sizeOf_of_ofWritten? ‹_›

/-- The traits of a declared type. -/
def traits : Ty → Traits
  | plain n => ⟨.plain, .none, false, false, plain n⟩
  | wrap w t =>
    match Shape.combine w.shape t.traits.shape with
    | some shape =>
      ⟨shape, if w.sharing = .none then t.traits.sharing else w.sharing, true, false, t.traits.inner⟩
    | none => ⟨w.shape, w.sharing, false, t.traits.shape.isCombination, t⟩

/-- What the shape of a declared type offers. -/
def capabilities (t : Ty) : Capabilities := t.traits.shape.capabilities t.traits.sharing

/-- Values of the type can be copied: what an owning pointer owns cannot, nor what a lock guards. -/
def copyable : Ty → Bool
  | plain _ => true
  | wrap w t =>
    match w with
    | .unique | .mutexGuarded | .rwGuarded => false
    | .shared | .localShared | .weak => true
    | _ => t.copyable

def wrapper? : Ty → Option Wrapper
  | plain _ => none
  | wrap w _ => some w

/-- The type inside the outermost wrapper. -/
def payload? : Ty → Option Ty
  | plain _ => none
  | wrap _ t => some t

/-- The two outermost wrappers, if they merge. -/
def mergedPair? : Ty → Option (Wrapper × Wrapper)
  | wrap w (wrap v t) => if (wrap w (wrap v t)).traits.merged then some (w, v) else none
  | _ => none

/-- The type of the unwrapped value. The step into a shared guarded value stops at the guarded value. -/
def unwrapped (t : Ty) : Ty :=
  if t.traits.shape.sharedGuard then t.payload?.getD t else t.traits.inner

def element (t : Ty) : Ty := t.traits.inner

/-- The kind of position the type takes: its own, or else that of the payload it merges with. -/
def position? : Ty → Option PositionType
  | plain _ => none
  | wrap w t =>
    if w.positional then w.position? t.describe
    else
      match (wrap w t).mergedPair?, t with
      | some (_, v), wrap _ u => v.position? u.describe
      | _, _ => none

end Ty
end Accessors
