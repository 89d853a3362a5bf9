import Accessors.Log.Record

/-! # The console

Where log records go. A record is passed on to every sink that is installed, while records are passed on at all, and
each sink has a threshold. The console installs a sink of its own and removes the one it installed before. The first
use of the logger installs a sink at notice, unless the console was configured or reset before. -/

namespace Accessors

structure Sink where
  number : Nat
  threshold : Level
deriving DecidableEq, Repr

structure Console where
  /-- The sinks that are installed. -/
  sinks : List Sink
  /-- The number of the sink that the console installed, until it is removed. -/
  own : Option Nat
  /-- How many sinks were made. -/
  made : Nat
  /-- The threshold last asked for. -/
  threshold : Level
  /-- The console was configured or reset. -/
  configured : Bool
  /-- Records are passed on at all. -/
  enabled : Bool
  /-- The logger was used. -/
  used : Bool
deriving DecidableEq, Repr

namespace Console

def initial : Console := ⟨[], none, 0, .notice, false, true, false⟩

/-- The console without the sink that it installed. -/
def removeSink (c : Console) : Console :=
  match c.own with
  | some n => { c with sinks := c.sinks.filter (·.number != n), own := none }
  | none => c

/-- A new sink replaces the one before and enables logging. -/
def configure (c : Console) (l : Level) : Console :=
  let c := c.removeSink
  { c with
    sinks := c.sinks ++ [⟨c.made, l⟩]
    own := some c.made
    made := c.made + 1
    threshold := l
    configured := true
    enabled := true }

def configureDefault (c : Console) : Console := c.configure .notice

/-- Options without a level leave the console alone. -/
def configureFrom (c : Console) (level : Option Level) : Console :=
  match level with
  | some l => c.configure l
  | none => c

/-- Without a sink nothing is written until the console is configured again. -/
def reset (c : Console) : Console := { c.removeSink with configured := true, enabled := false }

/-- The first use of the logger installs the default sink unless something was decided before. -/
def ready (c : Console) : Console :=
  if c.used then c
  else { (if c.configured then c else c.configureDefault) with used := true }

/-- What is written when a record is passed on: the record once for each sink whose threshold lets it through. -/
def writes (c : Console) (r : Record) : List Record :=
  if c.enabled then (c.sinks.filter fun k => k.threshold ≤ r.level).map fun _ => r else []

def emit (c : Console) (r : Record) : Console × List Record := (c.ready, c.ready.writes r)

/-- A record below `threshold` is skipped before it reaches the logger. -/
def emitFrom (c : Console) (threshold : Level) (r : Record) : Console × List Record :=
  if threshold ≤ r.level then c.emit r else (c, [])

/-- The console after some records, and what is written. -/
def emitAll (c : Console) : List Record → Console × List Record
  | [] => (c, [])
  | r :: rs =>
    let (c', ws) := c.emit r
    let (c'', ws') := c'.emitAll rs
    (c'', ws ++ ws')

def lines (ws : List Record) : List String := ws.flatMap Record.lines

inductive Command where
  | configure (level : Level)
  | configureDefault
  | configureFrom (level : Option Level)
  | reset
  | emit (record : Record)
  | emitFrom (threshold : Level) (record : Record)
deriving DecidableEq, Repr

/-- The console after a command, and what the command wrote. -/
def step (c : Console) : Command → Console × List Record
  | .configure l => (c.configure l, [])
  | .configureDefault => (c.configureDefault, [])
  | .configureFrom l => (c.configureFrom l, [])
  | .reset => (c.reset, [])
  | .emit r => c.emit r
  | .emitFrom t r => c.emitFrom t r

def run (c : Console) (cmds : List Command) : Console :=
  cmds.foldl (fun c cmd => (c.step cmd).1) c

end Console
end Accessors
