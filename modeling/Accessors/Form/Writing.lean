import Accessors.Form
import Accessors.Store

/-! # Writing values

The data that a value is written as in a form. A shared handle is written as what its cell holds, and so
is a watching handle while its cell has an owner. -/

namespace Accessors

/-- Writes a value around the payload that `write` writes. -/
def Wrapper.writeDatum (w : Wrapper) (write : Value → Datum) (s : Store) (v : Value) : Datum :=
  match w, v with
  | optional, .holding v => .labeled "some" (write v)
  | unique, .holding v => .labeled "ptr" (write v)
  | shared, .shared c | localShared, .shared c => .labeled "ptr" (write (s.value (.cell c)))
  | weak, .weak c =>
    if s.alive c then .labeled "weak" (write (s.value (.cell c))) else .text "expired"
  | weak, _ => .text "expired"
  | result _, .holding v => .labeled "ok" (write v)
  | result _, .failed n => .labeled "err" (.int n)
  | mutexGuarded, .guarded _ v | rwGuarded, .guarded _ v => .labeled "guarded" (write v)
  | tagged _, .holding v => .labeled "tagged" (write v)
  | _, .items vs =>
    .list (vs.map fun
      | .entry k v => .list [.ofKey k, write v]
      | v => write v)
  | _, _ => .null

namespace Form

/-- The written form of the active case. -/
def writtenCase (style : UnionStyle) (label : String) (isUnit : Bool) (payload : Datum) : Datum :=
  match style with
  | .named => .fields [("case", .text label), ("value", payload)]
  | .keyed => if isUnit then .text label else .labeled label payload
  | .bare => payload

mutual

/-- The data that a value is written as. -/
def write (s : Store) : Form → Value → Datum
  | number _ _, .int n => .int n
  | text _, .text t => .text t
  | flag _, .flag b => .flag b
  | unit _, _ => .text "unit"
  | wrapped w f, v => w.writeDatum (f.write s) s v
  | tuple _ fs, .items vs => .list (writeParts s fs vs)
  | record _ .listed _ fs, .items vs => .list (writeParts s fs vs)
  | record _ .labeled ls fs, .items vs => .fields (writeFields s ls fs vs)
  | union _ style ls fs _, .alternative i v => writeCase s style ls fs i v
  | _, _ => .null

/-- The fields of a tuple, in order. -/
def writeParts (s : Store) : List Form → List Value → List Datum
  | f :: fs, v :: vs => f.write s v :: writeParts s fs vs
  | _, _ => []

def writeFields (s : Store) : List String → List Form → List Value → List (String × Datum)
  | l :: ls, f :: fs, v :: vs => (l, f.write s v) :: writeFields s ls fs vs
  | _, _, _ => []

/-- The case at an index with its payload. -/
def writeCase (s : Store) (style : UnionStyle) : List String → List Form → Nat → Value → Datum
  | l :: _, f :: _, 0, v => writtenCase style l f.isUnit (f.write s v)
  | _ :: ls, _ :: fs, i + 1, v => writeCase s style ls fs i v
  | _, _, _, _ => .null

end

end Form
end Accessors
