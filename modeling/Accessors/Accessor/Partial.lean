import Accessors.Accessor.Erased

/-! # Accessors of any value type

A borrowing accessor whose value type, or whose root type too, is known only when it is used. Its reading
and its writing function are kept if its flavor has them, and a value is handed out only as the type it
really has. An accessor without a root type is made of one that has it, and goes through that one's checked
uses. -/

namespace Accessors

/-- Access that the flavor of a partial path does not have. -/
structure NoAccess where
  writing : Bool
  flavor : Flavor
deriving DecidableEq, Repr

def NoAccess.message (u : NoAccess) : String :=
  "partial_path: " ++ u.flavor.name ++ " accessor has no "
    ++ (if u.writing then "write" else "read") ++ " access"

/-- A borrowing accessor whose value type is a field. -/
structure PartialPath (R : Ty) where
  valueType : Ty
  flavor : Flavor
  readFn : Option Borrow
  writeFn : Option Borrow

/-- A borrowing accessor whose root and value types are fields. -/
structure AnyPath where
  rootType : Ty
  valueType : Ty
  flavor : Flavor
  readFn : Option Borrow
  writeFn : Option Borrow

/-- What a function lends that is kept only with the access, and called only if the types asked for are the right
    ones. -/
def lendIf (right : Prop) [Decidable right] (fn : Option Borrow) (s : Store) (r : Place) : Run (Option Place) :=
  if right then
    match fn with
    | some f => f s r
    | none => .done none
  else .done none

namespace PartialPath
variable {R V : Ty}

/-- A borrowing accessor without its value type. An owning accessor has no such form. -/
def ofErased (e : Erased R V) (_ : e.flavor.family ≠ .own) : PartialPath R :=
  ⟨V, e.flavor, e.readFn?, e.writeFn?⟩

def ofErased? (e : Erased R V) : Option (PartialPath R) :=
  if h : e.flavor.family = .own then none else some (ofErased e h)

/-- The accessor lends its value for reading. -/
def readable (p : PartialPath R) : Bool := p.readFn.isSome

def writable (p : PartialPath R) : Bool := p.writeFn.isSome

/-- The place of the value to read. -/
def get (p : PartialPath R) (s : Store) (r : Place) : Except NoAccess (Run (Option Place)) :=
  match p.readFn with
  | some f => .ok (f s r)
  | none => .error ⟨false, p.flavor⟩

def getMut (p : PartialPath R) (s : Store) (r : Place) : Except NoAccess (Run (Option Place)) :=
  match p.writeFn with
  | some f => .ok (f s r)
  | none => .error ⟨true, p.flavor⟩

/-- The place of the value to read, if it is of the given type. -/
def getAs (p : PartialPath R) (type : Ty) : Borrow := lendIf (p.valueType = type) p.readFn

def getMutAs (p : PartialPath R) (type : Ty) : Borrow := lendIf (p.valueType = type) p.writeFn

end PartialPath

namespace AnyPath

/-- A checked use as a run, which breaks off without the access. -/
def granted {α : Type} : Except NoAccess (Run α) → Run α
  | .ok r => r
  | .error u => .stop u.message

/-- A partial path without its root type. -/
def ofPartial {R : Ty} (p : PartialPath R) : AnyPath where
  rootType := R
  valueType := p.valueType
  flavor := p.flavor
  readFn := if p.readable then some fun s r => granted (p.get s r) else none
  writeFn := if p.writable then some fun s r => granted (p.getMut s r) else none

/-- A borrowing accessor without its root and value types. An owning accessor has no such form. -/
def ofErased {R V : Ty} (e : Erased R V) (h : e.flavor.family ≠ .own) : AnyPath :=
  ofPartial (.ofErased e h)

def ofErased? {R V : Ty} (e : Erased R V) : Option AnyPath :=
  if h : e.flavor.family = .own then none else some (ofErased e h)

/-- The place of the value to read, if the root and the value are of the given types. -/
def getAs (p : AnyPath) (root value : Ty) : Borrow := lendIf (p.rootType = root ∧ p.valueType = value) p.readFn

def getMutAs (p : AnyPath) (root value : Ty) : Borrow := lendIf (p.rootType = root ∧ p.valueType = value) p.writeFn

end AnyPath
end Accessors
