import Accessors.Catalog
import Accessors.Config
import Accessors.Defect
import Accessors.Log.Logged

/-! # Classification

A type expression is given a shape by the catalog. The payload of a wrapper is classified first. If the
two shapes form a combination, the wrapper is a combination and its inner type is the payload's inner
type. If the payload is itself a combination and does not merge, the wrapper keeps its own shape and its
inner type is opaque: it is not taken apart any further. Strict nesting refuses such a type.

Only the payload chain is looked at: no other argument can make classification fail. -/

namespace Accessors

/-- The shape of a type and what it wraps. -/
structure Classification where
  shape : Shape
  sharing : Sharing
  inner : TypeExpr
  key : Option TypeExpr
  isOpaque : Bool
deriving DecidableEq, Repr

namespace Classification

/-- A type that is no wrapper is its own inner type. -/
def plain (t : TypeExpr) : Classification := ⟨.plain, .none, t, none, false⟩

/-- The written form: the shape, then what applies of the sharing mode, the key, the inner type and the
    mark of an opaque inner type. -/
def text (c : Classification) : String :=
  c.shape.name
    ++ (if c.sharing = .none then "" else "(" ++ c.sharing.name ++ ")")
    ++ (match c.key with
        | some k => " key=" ++ k.text
        | none => "")
    ++ " inner=" ++ c.inner.text
    ++ (if c.isOpaque then " (opaque)" else "")

end Classification

/-- A computation that may end with a defect, which is then its last record. -/
abbrev Planning (α : Type) := Logged Defect α

def Planning.fail {α : Type} (d : Defect) : Planning α := Logged.fail Defect.message d

/-- The payload and key arguments that an entry selects, if there are enough arguments. -/
def Entry.select (e : Entry) (args : List TypeExpr) : Option (TypeExpr × Option TypeExpr) :=
  match args[e.payload]?, e.key with
  | some p, none => some (p, none)
  | some p, some k => (args[k]?).map fun t => (p, some t)
  | none, _ => none

/-- A wrapper classified by its own entry alone. -/
def Entry.alone (e : Entry) (payload : TypeExpr) (key : Option TypeExpr) : Classification :=
  ⟨e.shape, e.sharing, payload, key, false⟩

/-- The classification of a wrapper that merges with its payload. The sharing mode is the payload's
    unless the wrapper itself is a shared handle; the same goes for a key. -/
def Classification.merge (e : Entry) (own payload : Classification) (merged : Shape) : Classification :=
  { own with
    shape := merged
    inner := payload.inner
    key := own.key <|> payload.key
    sharing := if e.shape.involvesSharing then own.sharing else payload.sharing }

/-- The record of a payload that is left opaque. -/
def opaqueNotice (t : TypeExpr) (own : Classification) : Record :=
  ⟨.notice, t.text ++ ": treating " ++ own.inner.text ++ " as opaque inside " ++ own.shape.name⟩

/-- How a wrapper `t` of entry `e` is classified once its payload is. -/
def Classification.combineWith (config : Config) (t : TypeExpr) (e : Entry)
    (own payload : Classification) : Planning Classification :=
  match Shape.combine e.shape payload.shape with
  | some merged => .ok (merge e own payload merged)
  | none =>
    if payload.shape.isCombination then
      if config.strictNesting then .fail (.nestedTooDeeply t)
      else do
        Logged.note config.logLevel (opaqueNotice t own)
        return { own with isOpaque := true }
    else .ok own

mutual

/-- The classification of a type expression, without the record of its outcome. -/
def classifyNode (catalog : Catalog) (config : Config) : TypeExpr → Planning Classification
  | .node name args =>
    match catalog.find? name with
    | none => .ok (.plain (.node name args))
    | some e =>
      match e.select args with
      | none => .fail (.tooFewArguments name e.needed args.length)
      | some (payload, key) =>
        if config.nestedCombinations then
          (classifyArg catalog config args e.payload).andThen
            (Classification.combineWith config (.node name args) e (e.alone payload key))
        else .ok (e.alone payload key)

/-- The classification of the argument at a position; a position outside the list is plain. -/
def classifyArg (catalog : Catalog) (config : Config) : List TypeExpr → Nat → Planning Classification
  | [], _ => .ok (.plain (.atom ""))
  | t :: _, 0 => classifyNode catalog config t
  | _ :: ts, i + 1 => classifyArg catalog config ts i

end

/-- The classification of a type expression, recorded when it succeeds. -/
def classify (catalog : Catalog) (config : Config) (t : TypeExpr) : Planning Classification :=
  (classifyNode catalog config t).andThen fun c =>
    (Logged.note config.logLevel ⟨.debug, t.text ++ " classified as " ++ c.text⟩).andThen fun _ =>
      .ok c

end Accessors
