import Accessors.Ty
import Accessors.Value.Width

/-! # Forms

How the values of a type are written down as data. A form follows the structure of the type: numbers,
texts and flags at the leaves, and around them wrappers, tuples, records and unions. A tuple is written
as the list of its fields, and a record either as such a list or as its fields with their labels. -/

namespace Accessors

/-- Written data. -/
inductive Datum where
  | null
  | flag (b : Bool)
  | int (n : Int)
  | text (s : String)
  | list (xs : List Datum)
  | fields (fs : List (String × Datum))
deriving Repr, Inhabited

namespace Datum

def field? : Datum → String → Option Datum
  | fields fs, l => (fs.find? fun f => f.1 == l).map Prod.snd
  | _, _ => none

/-- What stands under a label, or the datum itself without it: the label may be left out. -/
def under (l : String) (d : Datum) : Datum := (d.field? l).getD d

/-- One datum with a label. -/
def labeled (l : String) (d : Datum) : Datum := fields [(l, d)]

def isNull : Datum → Bool
  | null => true
  | _ => false

def list? : Datum → Option (List Datum)
  | list xs => some xs
  | _ => none

/-- A key is a number or a text. -/
def key? : Datum → Option Value
  | int n => some (.int n)
  | text s => some (.text s)
  | _ => none

/-- A key with the datum bound to it. -/
def pair? : Datum → Option (Datum × Datum)
  | list [k, d] => some (k, d)
  | _ => none

/-- A key as it is written. -/
def ofKey : Value → Datum
  | .int n => int n
  | .text s => text s
  | _ => null

end Datum

/-- How the active case of a union is written. -/
inductive UnionStyle where
  /-- Its name under `case` and its payload under `value`. -/
  | named
  /-- Its payload under its name, or its name alone if it has none. -/
  | keyed
  /-- Its payload alone. -/
  | bare
deriving DecidableEq, Repr

/-- How the fields of a record are written. -/
inductive Layout where
  | listed
  | labeled
deriving DecidableEq, Repr

/-- How the values of a type are written. The case of a union with index `start` is active at first. -/
inductive Form where
  | number (type : String) (width : Width)
  | text (type : String)
  | flag (type : String)
  | unit (type : String)
  | wrapped (w : Wrapper) (payload : Form)
  | tuple (type : String) (parts : List Form)
  | record (type : String) (layout : Layout) (labels : List String) (parts : List Form)
  | union (type : String) (style : UnionStyle) (labels : List String) (cases : List Form) (start : Nat)
deriving Repr, Inhabited

namespace Form

def type : Form → Ty
  | number n _ | text n | flag n | unit n => .plain n
  | tuple n _ | record n _ _ _ | union n _ _ _ _ => .plain n
  | wrapped w f => .wrap w f.type

def isUnit : Form → Bool
  | unit _ => true
  | _ => false

mutual

/-- The value of a type that nothing is said about. -/
def initial : Form → Value
  | number _ _ => .int 0
  | text _ => .text ""
  | flag _ => .flag true
  | unit _ => .unit
  | wrapped w f =>
    match w with
    | .optional | .unique | .shared | .localShared | .weak => .empty
    | .tagged _ | .result _ => .holding f.initial
    | .mutexGuarded | .rwGuarded => .guarded false f.initial
    | _ => .items []
  | tuple _ fs | record _ _ _ fs => .items (initials fs)
  | union _ _ _ fs i => .alternative i (initialCase fs i)

def initials : List Form → List Value
  | [] => []
  | f :: fs => f.initial :: initials fs

/-- The initial value of the type at an index. -/
def initialCase : List Form → Nat → Value
  | [], _ => .unit
  | f :: _, 0 => f.initial
  | _ :: fs, i + 1 => initialCase fs i

end

end Form

/-- The form of a declared type, if its plain type has one. -/
def Ty.form? (plain : String → Option Form) : Ty → Option Form
  | .plain n => plain n
  | .wrap w t => (t.form? plain).map (.wrapped w)

end Accessors
