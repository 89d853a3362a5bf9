import Accessors.Accessor.Compose

/-! # Accessors of any flavor

An accessor whose flavor is known only when it is used. What its flavor does not support is refused,
and so is joining it with an accessor whose flavor does not compose with its own. -/

namespace Accessors

/-- An operation of an accessor. -/
inductive Operation where
  | get
  | getMut
  | getOwned
  | embed
deriving DecidableEq, Repr

def Operation.name : Operation → String
  | get => "get"
  | getMut => "get_mut"
  | getOwned => "get_owned"
  | embed => "embed"

/-- The flavors that support an operation. -/
def Operation.supports : Operation → Flavor → Bool
  | get, f => f.reads
  | getMut, f => f.writes
  | getOwned, f => f.owns
  | embed, f => f.isCase

/-- An operation that the flavor of an accessor does not support. -/
structure Unsupported where
  operation : Operation
  flavor : Flavor
deriving DecidableEq, Repr

def Unsupported.message (u : Unsupported) : String :=
  u.operation.name ++ " is not available on a " ++ u.flavor.name ++ " accessor"

/-- Two flavors that do not compose. -/
structure Incomposable where
  first : Flavor
  second : Flavor
deriving DecidableEq, Repr

def Incomposable.message (u : Incomposable) : String :=
  "cannot compose " ++ u.first.name ++ " with " ++ u.second.name

/-- An accessor together with its flavor. -/
structure Erased (R V : Ty) where
  flavor : Flavor
  path : Accessor flavor R V

/-- A function from the place of a root to the place of a value. -/
abbrev Borrow := Store → Place → Run (Option Place)

namespace Erased
variable {R M V : Ty}

def of {f : Flavor} (a : Accessor f R V) : Erased R V := ⟨f, a⟩

/-- The place of the value to read. -/
def get (e : Erased R V) (s : Store) (p : Place) : Except Unsupported (Run (Option Place)) :=
  if h : e.flavor.reads = true then .ok (e.path.find h s p) else .error ⟨.get, e.flavor⟩

def getMut (e : Erased R V) (s : Store) (p : Place) : Except Unsupported (Run (Option Place)) :=
  if h : e.flavor.writes = true then .ok (e.path.findMut h s p) else .error ⟨.getMut, e.flavor⟩

/-- The value taken out of a root. -/
def getOwned (e : Erased R V) (s : Store) (r : Value) :
    Except Unsupported (Run (Store × Option Value)) :=
  if h : e.flavor.owns = true then .ok (e.path.findOwned h s r) else .error ⟨.getOwned, e.flavor⟩

def embed (e : Erased R V) (v : Value) : Except Unsupported (Run Value) :=
  if h : e.flavor.isCase = true then .ok (e.path.embed h v) else .error ⟨.embed, e.flavor⟩

/-- The function that lends the value to read it, if the flavor has one. -/
def readFn? (e : Erased R V) : Option Borrow :=
  if h : e.flavor.reads = true then some (e.path.find h) else none

def writeFn? (e : Erased R V) : Option Borrow :=
  if h : e.flavor.writes = true then some (e.path.findMut h) else none

/-- The accessor followed by another one. -/
def next (a : Erased R M) (b : Erased M V) : Except Incomposable (Erased R V) :=
  match h : a.flavor.compose b.flavor with
  | some k => .ok ⟨k, a.path.compose b.path h⟩
  | none => .error ⟨a.flavor, b.flavor⟩

def toFailable (e : Erased R V) : Erased R V := ⟨e.flavor.failableOf, e.path.toFailable⟩

/-- The accessor under another way of counting its own owners. -/
def rebind (e : Erased R V) : Erased R V := ⟨e.flavor, e.path.rebind⟩

/-- The accessor as one of a given flavor, if that is its flavor. -/
def asFlavor? (e : Erased R V) (f : Flavor) : Option (Accessor f R V) :=
  if h : e.flavor = f then some (h ▸ e.path) else none

end Erased
end Accessors
