import Accessors.Member
import Accessors.Plan.Case

/-! # Union cases

The accessors of one case of a union. A case accessor finds the payload only while its case is active,
and can build the union from a payload. The other accessors go from the union to the unwrapped payload,
to an element of it, or to a field of it. A case without payload can only be read. -/

namespace Accessors

/-- What a case of a union holds. The type of a tuple is known by one name, as that of a record is. -/
inductive Alternative where
  | unit
  | single (type : Ty)
  | tuple (name : String) (fields : List Ty)
  | record (name : String) (fields : List (String × Ty))
deriving DecidableEq, Repr

namespace Alternative

/-- The type of the payload. A tuple or a record is a plain type. -/
def type : Alternative → Ty
  | unit => .plain "kpath::unit"
  | single t => t
  | tuple n _ | record n _ => .plain n

def isUnit : Alternative → Bool
  | unit => true
  | _ => false

/-- How the payload is written. -/
def style : Alternative → PayloadStyle
  | unit => .none
  | single _ => .single
  | tuple _ _ => .positional
  | record _ _ => .labeled

/-- The fields of a payload as they are described: the one payload and the fields of a tuple are called
    by their position. -/
def fields : Alternative → List FieldDecl
  | unit => []
  | single t => [⟨"0", t.describe⟩]
  | tuple _ ts => ts.zipIdx.map fun ti => ⟨toString ti.2, ti.1.describe⟩
  | record _ fs => fs.map fun f => ⟨f.1, f.2.describe⟩

/-- The names and types of the fields that have accessors of their own. -/
def accessibleFields : Alternative → List (String × Ty)
  | tuple _ ts => ts.zipIdx.map fun ti => (toString ti.2, ti.1)
  | record _ fs => fs
  | _ => []

end Alternative

/-- A case of a union: the alternative at an index. -/
structure UnionCase where
  name : String
  index : Nat
  payload : Alternative
  scope : Scope
deriving DecidableEq, Repr

/-- The description of a case from which it is planned. -/
def UnionCase.describe (c : UnionCase) (scopes : List Scope) : CaseDecl where
  name := c.name
  arity := UInt32.ofNat c.payload.fields.length
  style := c.payload.style
  fields := c.payload.fields
  scopes := scopes
  record := match c.payload with
    | .record n _ => n
    | _ => ""

namespace UnionCase
variable (c : UnionCase) (U : Ty)

def type : Ty := c.payload.type

/-- The case has a case accessor of the flavor. -/
def offersCase (f : Flavor) : Bool :=
  match f with
  | .caseReadable => c.scope.keeps f
  | .caseWritable => !c.payload.isUnit && c.scope.keeps f
  | _ => false

/-- The case has an accessor of the flavor to the unwrapped payload. A plain payload is not unwrapped,
    but it can be taken. -/
def offersUnwrap (f : Flavor) : Bool :=
  !c.payload.isUnit && c.scope.keeps f && c.type.capabilities.offered.contains f &&
    (f = .failableOwned || ((f = .failableReadable || f = .failableWritable) && c.type.traits.shape != .plain))

/-- The case has an accessor of the flavor to the element at a position. -/
def offersAt (f : Flavor) : Bool :=
  !c.payload.isUnit && c.type.capabilities.atPosition.contains f && c.scope.keeps f

/-- The case has an accessor of the flavor to each of its fields. -/
def offersField (f : Flavor) : Bool :=
  !c.payload.isUnit && c.scope.keeps f && (f = .failableReadable || f = .failableWritable)

/-- Where the payload is while the case is active. -/
def extract (s : Store) (p : Place) : Option Place :=
  match s.get? p with
  | some (.alternative i _) => if i = c.index then some p.inside else none
  | _ => none

/-- The union with the case active. -/
def embed (v : Value) : Value := .alternative c.index v

def caseR : Accessor .caseReadable U c.type :=
  .caseReadable (fun s p => .done (c.extract s p)) fun v => .done (c.embed v)

def caseW : Accessor .caseWritable U c.type :=
  .caseWritable (fun s p => .done (c.extract s p)) (fun s p => .done (c.extract s p)) fun v =>
    .done (c.embed v)

/-- Reads the unwrapped payload. -/
def fr : Accessor .failableReadable U c.type.unwrapped :=
  .failableReadable fun s p => .done ((c.extract s p).bind (c.type.read s))

def fw : Accessor .failableWritable U c.type.unwrapped :=
  .failableWritable fun s p => .done ((c.extract s p).bind (c.type.write s))

def fo : Accessor .failableOwned U c.type.unwrapped :=
  .failableOwned fun s v => .done <| inVariable s v fun s p =>
    match c.extract s p with
    | some q => c.type.take s q
    | none => (s, none)

/-- Reads the element of the payload at a position. -/
def frAt (pos : Position) : Accessor .failableReadable U c.type.element :=
  .failableReadable fun s p => .done ((c.extract s p).bind (c.type.readAt pos s))

def fwAt (pos : Position) : Accessor .failableWritable U c.type.element :=
  .failableWritable fun s p => .done ((c.extract s p).bind (c.type.writeAt pos s))

/-- Reads a field of the payload. -/
def fieldR (V : Ty) (i : Nat) : Accessor .failableReadable U V :=
  .failableReadable fun s p => .done ((c.extract s p).map (·.item i))

def fieldW (V : Ty) (i : Nat) : Accessor .failableWritable U V :=
  .failableWritable fun s p => .done ((c.extract s p).map (·.item i))

/-- The case accessor of a flavor. -/
def caseAccessor? (f : Flavor) : Option (Leg U) :=
  if c.offersCase f then
    match f with
    | .caseReadable => some (.fixed (.of (c.caseR U)))
    | .caseWritable => some (.fixed (.of (c.caseW U)))
    | _ => none
  else none

def unwrapAccessor? (f : Flavor) : Option (Leg U) :=
  if c.offersUnwrap f then
    match f with
    | .failableReadable => some (.fixed (.of (c.fr U)))
    | .failableWritable => some (.fixed (.of (c.fw U)))
    | .failableOwned => some (.fixed (.of (c.fo U)))
    | _ => none
  else none

def accessorAt? (f : Flavor) : Option (Leg U) :=
  if c.offersAt f then
    match f, c.type.position? with
    | .failableReadable, some t => some (.positional t fun pos => .of (c.frAt U pos))
    | .failableWritable, some t => some (.positional t fun pos => .of (c.fwAt U pos))
    | _, _ => none
  else none

/-- The base name of the accessors that unwrap the payload. -/
def unwrapBase : String := c.name ++ "_case"

/-- The named accessors of the case: the case accessors, those to the unwrapped payload, and those with a
    position, each in the order of the flavors. -/
def legs : List (String × Leg U) :=
  (Flavor.all.filterMap fun f => (c.caseAccessor? U f).map fun l => (constructorName c.name f, l))
    ++ (Flavor.all.filterMap fun f =>
        (c.unwrapAccessor? U f).map fun l => (constructorName c.unwrapBase f, l))
    ++ Flavor.all.filterMap fun f =>
        (c.accessorAt? U f).map fun l => (constructorName c.unwrapBase f true, l)

/-- The accessor of a flavor to the field of the given name. -/
def field? (f : Flavor) (name : String) : Option (Leg U) :=
  if c.offersField f then
    match c.payload.accessibleFields.zipIdx.find? fun fi => fi.1.1 == name, f with
    | some ((_, t), i), .failableReadable => some (.fixed (.of (c.fieldR U t i)))
    | some ((_, t), i), .failableWritable => some (.fixed (.of (c.fieldW U t i)))
    | _, _ => none
  else none

end UnionCase
end Accessors
