import Accessors.Plan.Constructor
import Accessors.Scope.Annotations

/-! # Plans of union cases

A case gets constructors that read and write its whole payload as a case, then constructors for the
unwrapped payload and for its positions, and then a reading and a writing constructor for each field of
a tuple or a record. A case without payload can only be read. -/

namespace Accessors

/-- A field of a case; the fields of a tuple are called by their position. -/
structure FieldDecl where
  name : String
  type : TypeExpr
deriving DecidableEq, Repr

/-- A case of a union as it is declared. -/
structure CaseDecl where
  name : String
  arity : UInt32
  style : PayloadStyle
  fields : List FieldDecl
  scopes : List Scope
  /-- The type name of a labeled payload. -/
  record : String
deriving DecidableEq, Repr

/-- The constructors planned for a case. -/
structure CasePlan where
  name : String
  scope : Scope
  style : PayloadStyle
  payload : Option Classification
  constructors : List Constructor
deriving DecidableEq, Repr

namespace CaseDecl

/-- The first thing that is wrong with a case description. -/
def fault? (c : CaseDecl) : Option CaseFault :=
  match c.style with
  | .none => if c.arity ≠ 0 ∨ c.fields ≠ [] then some .fieldsWithoutPayload else none
  | .single => if c.arity ≠ 1 ∨ c.fields.length ≠ 1 then some .notOneField else none
  | .positional =>
    if c.arity = 0 ∨ c.arity.toNat ≠ c.fields.length then some .positionalArity else none
  | .labeled =>
    if c.arity = 0 ∨ c.arity.toNat ≠ c.fields.length then some .labeledArity
    else if c.fields.any (·.name.isEmpty) then some .namelessField
    else if c.record.isEmpty then some .noRecord
    else none

/-- A faulty case description ends planning. -/
def check (c : CaseDecl) (site : String) : Planning Unit :=
  match c.fault? with
  | some fault => .fail (.malformedCase site fault)
  | none => .ok ()

def payload (c : CaseDecl) : TypeExpr :=
  match c.style with
  | .none => .atom "kpath::unit"
  | .single =>
    match c.fields with
    | f :: _ => f.type
    | [] => .atom "kpath::unit"
  | .positional => .node "std::tuple" (c.fields.map (·.type))
  | .labeled => .atom c.record

/-- The base name of the constructors that unwrap the payload. -/
def unwrapBase (c : CaseDecl) : String := c.name ++ "_case"

/-- The constructors for the whole payload; a case without one is not written. -/
def wholeConstructors (c : CaseDecl) (scope : Scope) : List Constructor :=
  plannedWhole c.name scope (.ofList Flavor.all) (fun _ => c.payload)
    (if c.style = .none then [.caseReadable] else [.caseReadable, .caseWritable])

/-- The flavors that unwrap a payload. A plain payload is not unwrapped, but it can be taken out. -/
def unwrapFlavors (shape : Shape) : List Flavor :=
  if shape = .plain then [.failableOwned]
  else [.failableReadable, .failableWritable, .failableOwned]

/-- The constructors for the unwrapped payload and for its positions. -/
def unwrapConstructors (c : CaseDecl) (scope : Scope) (payload : Classification) : List Constructor :=
  plannedWhole c.unwrapBase scope payload.capabilities.offered (fun _ => payload.unwrapped c.payload)
      (unwrapFlavors payload.shape)
    ++ plannedAt c.unwrapBase scope payload

/-- The constructors for one field. -/
def fieldConstructors (scope : Scope) (base : String) (type : TypeExpr) : List Constructor :=
  ([(Flavor.failableReadable, "_r"), (Flavor.failableWritable, "_w")].filter fun fs =>
      scope.keeps fs.1).map fun fs => ⟨base ++ fs.2, fs.1, .none, type⟩

/-- How the fields are called in constructor names: by position in a tuple, by name in a record, and
    not at all otherwise. -/
def calledFields (c : CaseDecl) : List (String × TypeExpr) :=
  match c.style with
  | .positional => c.fields.zipIdx.map fun fi => (toString fi.2, fi.1.type)
  | .labeled => c.fields.map fun f => (f.name, f.type)
  | _ => []

def allFieldConstructors (c : CaseDecl) (scope : Scope) : List Constructor :=
  c.calledFields.flatMap fun f => fieldConstructors scope (c.name ++ "_" ++ f.1) f.2

/-- The classification of the payload. Only a single payload is classified; a tuple or a record is
    plain. -/
def classifyPayload (c : CaseDecl) (catalog : Catalog) (config : Config) :
    Planning (Option Classification) :=
  match c.style with
  | .none => .ok none
  | .single => (classify catalog config c.payload).andThen fun p => .ok (some p)
  | _ => .ok (some (.plain c.payload))

/-- The constructors of a case whose payload is classified as given. -/
def constructors (c : CaseDecl) (scope : Scope) (payload : Option Classification) : List Constructor :=
  c.wholeConstructors scope
    ++ (match payload with
        | none => []
        | some p => c.unwrapConstructors scope p)
    ++ c.allFieldConstructors scope

end CaseDecl

/-- The plan of a case of a union annotated with `typeScopes`. -/
def planCase (catalog : Catalog) (config : Config) (owner : String) (typeScopes : List Scope)
    (c : CaseDecl) : Planning CasePlan :=
  let site := siteName owner c.name
  (c.check site).andThen fun _ =>
    (resolveScope c.scopes typeScopes config.defaultScope site).andThen fun scope =>
      (c.classifyPayload catalog config).andThen fun payload =>
        let constructors := c.constructors scope payload
        (Logged.notes config.logLevel (constructors.map (Constructor.record site))).andThen fun _ =>
          .ok ⟨c.name, scope, c.style, payload, constructors⟩

end Accessors
