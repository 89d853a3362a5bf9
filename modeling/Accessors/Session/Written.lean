import Accessors.Form.Reading
import Accessors.Form.Writing
import Accessors.Session

/-! # Sessions in written form

The uses of a session with data in place of values: what is written or embedded is read from data first,
and what is found is written as data. -/

namespace Accessors.Session

/-- Why a use of an accessor has no result. -/
inductive Refusal where
  | unsupported (u : Unsupported)
  | broken (message : String)
  | unreadable (type : Ty)
deriving Repr

/-- What a use of an accessor leaves behind: what it found, its calls, and the session. -/
structure Use where
  found : Option Datum
  calls : List String
  store : Store

/-- The value that some data stands for. -/
def decode (f : Form) (d : Datum) (s : Store) : Except Refusal (Value × Store) :=
  match f.read d s with
  | some r => .ok r
  | none => .error (.unreadable f.type)

/-- The value that some data stands for, if there is any. -/
def decodeIf (f : Form) (d : Option Datum) (s : Store) : Except Refusal (Option Value × Store) :=
  match d with
  | some d => (decode f d s).map fun r => (some r.1, r.2)
  | none => .ok (none, s)

/-- A session whose root is what some data stands for. -/
def startFrom (f : Form) (d : Datum) : Except Refusal Store :=
  (decode f d .empty).map fun r => start r.1 r.2

def rootDatum (f : Form) (s : Store) : Datum := f.write s (s.value root)

/-- The calls and the result of a run, if it has one. -/
def ran {α : Type} (x : Except Unsupported (Run α)) : Except Refusal (List String × α) :=
  match x with
  | .error u => .error (.unsupported u)
  | .ok r =>
    match r.outcome with
    | .ok a => .ok (r.calls, a)
    | .error e => .error (.broken e)

variable {R V : Ty}

/-- Reads what an accessor finds in the root. -/
def readUse (f : Form) (e : Erased R V) (s : Store) : Except Refusal Use := do
  let (calls, v) ← ran (read e s)
  return ⟨v.map (f.write s), calls, s⟩

/-- Writes some data, if it is given, where an accessor finds a value in the root. The data are not looked
    at before there is a place for them. -/
def writeUse (f : Form) (e : Erased R V) (d : Option Datum) (s : Store) : Except Refusal Use := do
  match ← ran (e.getMut s root) with
  | (calls, none) => return ⟨none, calls, s⟩
  | (_, some _) =>
    let (v, s) ← decodeIf f d s
    let (calls, s, w) ← ran (write e v s)
    return ⟨w.map (f.write s), calls, s⟩

/-- Takes what an accessor finds in the root or in a copy of it. -/
def takeUse (f : Form) (e : Erased R V) (moved : Bool) (s : Store) : Except Refusal Use := do
  let (calls, s, v) ← ran (take e moved s)
  return ⟨v.map (f.write s), calls, s⟩

/-- Puts the root that an accessor builds around some data in the place of the root before. The data are
    not looked at unless the accessor builds roots. -/
def embedUse (root value : Form) (e : Erased R V) (d : Datum) (s : Store) : Except Refusal Use := do
  if Operation.embed.supports e.flavor then
    let (v, s) ← decode value d s
    let (calls, s) ← ran (embed e v s)
    return ⟨some (rootDatum root s), calls, s⟩
  else .error (.unsupported ⟨.embed, e.flavor⟩)

end Accessors.Session
