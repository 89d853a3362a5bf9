import Accessors.Form
import Accessors.Store
import Accessors.Value.Collection

/-! # Reading values

The value that some data stands for in a form. Reading a shared handle makes a new cell, so the handle is
its only owner. What a watching handle looks at gets a new cell with an owner of its own outside.

A field that is left out gets its initial value. -/

namespace Accessors

/-- A value that was read, and the store with the cells that were made for it. -/
abbrev ReadValue := Option (Value × Store)

/-- Reads some data in order. -/
def readEach (read : Datum → Store → ReadValue) : List Datum → Store → Option (List Value × Store)
  | [], s => some ([], s)
  | d :: ds, s => do
    let (v, s) ← read d s
    let (vs, s) ← readEach read ds s
    return (v :: vs, s)

/-- Reads some keys of a type, each with the datum bound to it, in order. -/
def readEntries (key : TypeExpr) (read : Datum → Store → ReadValue) :
    List Datum → Store → Option (List (Value × Value) × Store)
  | [], s => some ([], s)
  | d :: ds, s => do
    let (k, d) ← d.pair?
    let k ← k.key?
    let (v, s) ← read d s
    let (kvs, s) ← readEntries key read ds s
    return ((k.fitted key, v) :: kvs, s)

/-- Reads a value around the payload that `read` reads. -/
def Wrapper.readDatum (w : Wrapper) (read : Datum → Store → ReadValue) (d : Datum) (s : Store) :
    ReadValue :=
  match w with
  | optional => if d.isNull then some (.empty, s) else holding (d.under "some")
  | unique => if d.isNull then some (.empty, s) else holding (d.under "ptr")
  | shared | localShared =>
    if d.isNull then some (.empty, s)
    else do
      let (v, s) ← read (d.under "ptr") s
      return (.shared (s.alloc v).2, (s.alloc v).1)
  | weak =>
    if d.isNull then some (.empty, s)
    else do
      let (v, s) ← read d s
      let (s, c) := s.alloc v
      return (.weak c, { s with held := c :: s.held })
  | vector | deque | linkedList => collection id
  | priorityQueue => collection Value.queueOf
  | hashSet | orderedSet => collection Value.setOf
  | hashMap k | orderedMap k => do
    let (kvs, s) ← readEntries k read (← d.list?) s
    return (.items (Value.mappingOf kvs), s)
  | result _ =>
    match d.field? "err" with
    | some (.int n) => some (.failed (Width.bits32.fit n), s)
    | some _ => none
    | none => holding (d.under "ok")
  | mutexGuarded | rwGuarded => do
    let (v, s) ← read d s
    return (.guarded false v, s)
  | tagged _ => holding (d.under "tagged")
where
  /-- One value inside. -/
  holding (d : Datum) : ReadValue := do
    let (v, s) ← read d s
    return (.holding v, s)
  /-- Some items, put in order. -/
  collection (arrange : List Value → List Value) : ReadValue := do
    let (vs, s) ← readEach read (← d.list?) s
    return (.items (arrange vs), s)

namespace Form

/-- The index of the active case and its written payload. -/
def activeCase? (style : UnionStyle) (labels : List String) (cases : List Form) (d : Datum) :
    Option (Nat × Datum) :=
  match style, d with
  | .named, d => do
    let .text l ← d.field? "case" | none
    let i ← labels.findIdx? (· == l)
    return (i, (d.field? "value").getD .null)
  | .keyed, .text l => (labels.findIdx? (· == l)).map (·, .null)
  | .keyed, d => do
    let i ← labels.findIdx? fun l => (d.field? l).isSome
    return (i, (d.field? (← labels[i]?)).getD .null)
  | .bare, .int _ => (cases.findIdx? fun f => f matches number _ _).map (·, d)
  | .bare, .text _ => (cases.findIdx? fun f => f matches text _).map (·, d)
  | .bare, _ => none

mutual

/-- The value that a datum stands for. -/
def read : Form → Datum → Store → ReadValue
  | number _ w, .int n, s => some (.int (w.fit n), s)
  | text _, .text t, s => some (.text t, s)
  | flag _, .flag b, s => some (.flag b, s)
  | unit _, _, s => some (.unit, s)
  | wrapped w f, d, s => w.readDatum f.read d s
  | tuple _ fs, d, s => do
    let (vs, s) ← readParts fs (← d.list?) s
    return (.items vs, s)
  | record _ .listed _ fs, d, s => do
    let (vs, s) ← readParts fs (← d.list?) s
    return (.items vs, s)
  | record _ .labeled ls fs, .fields ds, s => do
    let (vs, s) ← readFields ls fs (.fields ds) s
    return (.items vs, s)
  | union _ style ls fs _, d, s => do
    let (i, d) ← activeCase? style ls fs d
    let (v, s) ← readCase fs i d s
    return (.alternative i v, s)
  | _, _, _ => none

/-- The fields of a tuple, in order. -/
def readParts : List Form → List Datum → Store → Option (List Value × Store)
  | [], [], s => some ([], s)
  | f :: fs, d :: ds, s => do
    let (v, s) ← f.read d s
    let (vs, s) ← readParts fs ds s
    return (v :: vs, s)
  | _, _, _ => none

/-- The fields of a record, each under its label. -/
def readFields : List String → List Form → Datum → Store → Option (List Value × Store)
  | l :: ls, f :: fs, d, s => do
    let (v, s) ← match d.field? l with
      | some x => f.read x s
      | none => some (f.initial, s)
    let (vs, s) ← readFields ls fs d s
    return (v :: vs, s)
  | _, _, _, s => some ([], s)

/-- The payload of the case at an index. -/
def readCase : List Form → Nat → Datum → Store → ReadValue
  | [], _, _, _ => none
  | f :: _, 0, d, s => f.read d s
  | _ :: fs, i + 1, d, s => readCase fs i d s

end

end Form
end Accessors
