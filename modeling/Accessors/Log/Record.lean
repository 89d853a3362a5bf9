import Accessors.Named
import Accessors.Text

/-! # Log records

A record is a text with a level. Levels are ordered from debug, the least severe, to error. -/

namespace Accessors

/-- The severity of a record. -/
inductive Level where
  | debug
  | info
  | notice
  | warning
  | error
deriving DecidableEq, Repr

namespace Level

def name : Level → String
  | debug => "debug"
  | info => "info"
  | notice => "notice"
  | warning => "warning"
  | error => "error"

/-- The level that a word stands for. -/
def ofName? : String → Option Level
  | "debug" => some debug
  | "info" => some info
  | "notice" => some notice
  | "warning" => some warning
  | "error" => some error
  | _ => none

instance : Named Level where
  first := debug
  name := name
  kind := "log level"
  ofName? := ofName?

/-- The place of a level in the order of severity. -/
def severity : Level → Nat
  | debug => 0
  | info => 1
  | notice => 2
  | warning => 3
  | error => 4

instance : LE Level := ⟨fun l m => l.severity ≤ m.severity⟩

instance (l m : Level) : Decidable (l ≤ m) := inferInstanceAs (Decidable (l.severity ≤ m.severity))

end Level

/-- A logged text. -/
structure Record where
  level : Level
  text : String
deriving DecidableEq, Repr

/-- What a console writes for a record, before the line end. -/
def Record.written (r : Record) : String :=
  "kpath " ++ r.level.name ++ ": " ++ r.text

/-- The lines a console shows for a record: one, unless its text has line ends. -/
def Record.lines (r : Record) : List String := (Text.lines r.written.toList).map String.ofList

def Record.atLeast (l : Level) (rs : List Record) : List Record :=
  rs.filter fun r => l ≤ r.level

end Accessors
