import Accessors.Form.Legs

/-! # Sample types

Records, unions and tuples on which accessors can be tried, each with the form of its values. -/

namespace Accessors.Sample

def int : Form := .number "int" .bits32

def long : Form := .number "long" .bits64

def string : Form := .text "std::string"

def optional (f : Form) : Form := .wrapped .optional f

def vector (f : Form) : Form := .wrapped .vector f

def shared (f : Form) : Form := .wrapped .shared f

def localShared (f : Form) : Form := .wrapped .localShared f

def tagged (f : Form) : Form := .wrapped (.tagged (.atom "w::sensor_tag")) f

def directory (f : Form) : Form := .wrapped (.orderedMap (.atom "std::string")) f

def table (f : Form) : Form := .wrapped (.orderedMap (.atom "int")) f

def point : Form := .tuple "w::Point" [int, int]

def circle : Form := .tuple "w::Circle" [int, int]

def pair : Form := .tuple "std::tuple<int, int>" [int, int]

/-! ### A figure, one case for each kind of payload -/

/-- The case names of a figure, each with its payload and the form of the payload. -/
def shapeTable : List (String × Alternative × Form) :=
  [("point", .tuple "std::tuple<int, int>" [int.type, int.type], pair),
    ("circle", .record "w::Circle" [("radius", int.type), ("color", int.type)], circle),
    single "label" (optional int),
    single "polygon" (vector int),
    ("empty", .unit, .unit "std::monostate"),
    single "handle" (shared int),
    single "table" (table int),
    single "slots" (vector (optional int)),
    single "tags" (.wrapped .orderedSet int),
    single "local" (localShared int),
    single "code" int]
where
  /-- A case with one payload. -/
  single (name : String) (f : Form) : String × Alternative × Form := (name, .single f.type, f)

/-- The cases of a figure under a scope. -/
def shapeCases (scope : Scope) : List UnionCase :=
  shapeTable.zipIdx.map fun c => ⟨c.1.1, c.2, c.1.2.1, scope⟩

def shape : Form :=
  .union "w::Shape" .named (shapeTable.map (·.1)) (shapeTable.map (·.2.2)) 0

/-! ### Orders -/

def line : Form :=
  .record "w::Line" .labeled ["sku", "quantity", "note"] [string, int, optional string]

def user : Form := .record "w::User" .labeled ["id", "name"] [int, string]

def status : Form :=
  .union "w::Status" .keyed ["active", "inactive"] [user, .unit "std::monostate"] 0

/-- An event is a status or a code, a code at first. -/
def event : Form := .union "w::Event" .keyed ["status", "code"] [status, int] 1

def order : Form :=
  .record "w::Order" .labeled ["id", "lines", "totals", "featured", "event", "best"]
    [int, vector line, directory int, optional line, event, tagged line]

def world : Form :=
  .record "w::World" .labeled ["name", "order", "slots", "orders", "pinned", "local"]
    [string, optional order, vector (optional line), directory order, shared line, localShared line]

/-! ### Gauges and readings -/

def gauge : Form := .record "w::Gauge" .listed ["level", "peak"] [int, optional int]

def reading : Form := .union "w::Reading" .bare ["number", "text"] [int, string] 0

/-! ### Staff -/

def employee : Form :=
  .record "w::Employee" .listed ["name", "age", "email"] [string, int, optional string]

def team : Form := .record "w::Team" .listed ["lead", "size"] [string, int]

def department : Form :=
  .record "w::Department" .labeled ["members", "scores", "shifts"]
    [vector employee, shared (vector int), table (vector int)]

/-! ### Accounts -/

def account : Form :=
  .record "w::Account" .labeled ["owner", "balance", "history"] [string, long, vector int]

/-- A handle to an account behind a guard. -/
def guardedAccount (guard : Wrapper) : Form := shared (.wrapped guard account)

/-- A bank with a handle to an account behind a guard. -/
def bank (guard : Wrapper) : Form := .record "w::Bank" .labeled ["primary"] [guardedAccount guard]

def primary (bank : Place) : Place := bank.item 0

/-- The wrappers that accessors of a gauge or a reading are put behind, innermost first. -/
def wrappers? (name : String) : Option (List Wrapper) :=
  match name with
  | "unique_ptr" => some [.unique]
  | "shared_ptr" => some [.shared]
  | "local_shared_ptr" => some [.localShared]
  | "optional" => some [.optional]
  | "tagged" => some [.tagged (.atom "w::sensor_tag")]
  | "result" => some [.result (.atom "boost::system::error_code")]
  | "sequence" => some [.vector]
  | "optional_unique_ptr" => some [.optional, .unique]
  | _ => none

/-! ### Types by name -/

/-- The types at which accessors of an erased root type start. -/
def roots : List (String × Form) := [("Employee", employee), ("Team", team), ("Reading", reading)]

/-- The types of the values that such accessors are asked for. -/
def values : List (String × Form) :=
  [("string", string), ("int", int), ("optional<string>", optional string)]

/-- The short name of a type, or its written form if it has none. -/
def shortName (t : Ty) : String :=
  match values.find? fun e => e.2.type == t with
  | some e => e.1
  | none => t.describe.text

/-- The sample types with legs of their own. -/
def all : List Form :=
  [int, long, string, point, circle, pair, shape, line, user, status, event, order, world, gauge, reading,
    employee, team, department, account, .flag "bool", .unit "std::monostate", .unit "kpath::unit"]

/-- The form of a plain sample type. -/
def form? (name : String) : Option Form := all.find? fun f => f.type == .plain name

end Accessors.Sample
