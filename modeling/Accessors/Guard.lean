import Accessors.Accessor.Erased
import Accessors.Log.Record

/-! # Guarded access

A guarded value is reached only under its lock. A function that is run there may break off: a writer that
does so leaves the value poisoned, and until the poison is cleared the value is not handed out again.

What is asked first decides the answer: whether there is a guarded value at all, then whether its lock
could be acquired, then whether the value is poisoned, and then whether the accessor finds anything in it.
Only the second of these, a failed lock, is recorded. -/

namespace Accessors

namespace Guard

/-- How an access ended. -/
inductive Status where
  | ok
  | absent
  | poisoned
  | lockFailed
deriving DecidableEq, Repr

def Status.name : Status → String
  | ok => "ok"
  | absent => "absent"
  | poisoned => "poisoned"
  | lockFailed => "lock_failed"

/-- How an access ended, and the result of the function, which there is only if it ended well. -/
structure Answer (α : Type) where
  status : Status
  value : Option α
deriving DecidableEq, Repr

def Answer.isOk {α : Type} (a : Answer α) : Bool := a.status == .ok

/-- What an access leaves behind: its records, the store, how often the function was run, and its answer
    or the message of the function that broke off. -/
structure Access (α : Type) where
  records : List Record
  store : Store
  calls : Nat
  outcome : Except String (Answer α)

/-- The lock is acquired, or the attempt fails for a reason. -/
inductive Acquisition where
  | acquired
  | failed (reason : String)
deriving DecidableEq, Repr

variable {α : Type}

/-- An access that ended without running the function. -/
def Access.without (s : Store) (status : Status) : Access α := ⟨[], s, 0, .ok ⟨status, none⟩⟩

/-- The guarded value at a place is poisoned. -/
def poisoned (s : Store) (g : Place) : Bool :=
  match s.get? g with
  | some (.guarded b _) => b
  | _ => false

/-- Sets or clears the poison of the guarded value at a place. -/
def setPoison (s : Store) (g : Place) (poisoned : Bool) : Store :=
  match s.get? g with
  | some (.guarded _ v) => s.set g (.guarded poisoned v)
  | _ => s

def clearPoison (s : Store) (g : Place) : Store := setPoison s g false

/-- The value behind the guard, for its only owner. -/
def inner? (s : Store) (g : Place) : Option Value :=
  match s.get? g with
  | some (.guarded _ v) => some v
  | _ => none

/-- The record of a lock that could not be acquired. -/
def lockFailure (use reason : String) : Record := ⟨.warning, use ++ " lock failed: " ++ reason⟩

/-- Finds a value behind the guard at a place, given the place of the guarded value. -/
abbrev Borrow := Store → Place → Run (Option Place)

/-- The whole value behind the guard. -/
def whole : Borrow := fun _ p => .done (some p)

/-- Acquires the lock of the guarded value at `g`, looks for a value in it, and runs `f` there. -/
def locked (use : String) (a : Acquisition) (s : Store) (g : Place) (find : Borrow)
    (f : Store → Place → Access α) : Access α :=
  match a with
  | .failed reason => { Access.without s .lockFailed with records := [lockFailure use reason] }
  | .acquired =>
    if poisoned s g then .without s .poisoned
    else
      match (find s g.inside).outcome with
      | .error e => ⟨[], s, 0, .error e⟩
      | .ok none => .without s .absent
      | .ok (some p) => f s p

def read (a : Acquisition) (s : Store) (g : Place) (find : Borrow)
    (f : Store → Place → Except String α) : Access α :=
  locked "read" a s g find fun s p => ⟨[], s, 1, (f s p).map fun v => ⟨.ok, some v⟩⟩

def write (a : Acquisition) (s : Store) (g : Place) (find : Borrow)
    (f : Store → Place → Store × Except String α) : Access α :=
  locked "write" a s g find fun s p =>
    match f s p with
    | (s, .ok v) => ⟨[], s, 1, .ok ⟨.ok, some v⟩⟩
    | (s, .error e) => ⟨[], setPoison s g true, 1, .error e⟩

/-- Where the guarded value is that a handle at a place owns. -/
def behindHandle (s : Store) (p : Place) : Option Place := (s.handle? p).map .cell

/-- Where the guarded value is that an accessor leads to: the value it finds, or what the handle there
    owns. -/
def behind (V : Ty) (s : Store) (p : Place) : Option Place :=
  match V with
  | .wrap .shared _ => behindHandle s p
  | _ => some p

/-- Goes on to the guarded value behind what is lent. -/
def onTo (V : Ty) (find : Borrow) : Borrow := fun s p => (find s p).map (·.bind (behind V s))

variable {R V : Ty}

/-- How an accessor leads from a root to a guarded value that is to be read. -/
def readTarget? (e : Erased R V) : Option Borrow := e.readFn?.map (onTo V)

/-- How an accessor leads from a root to a guarded value that is to be written. A handle to it may be
    reached for reading only. -/
def writeTarget? (e : Erased R V) : Option Borrow :=
  match e.writeFn?, V with
  | some find, V => some (onTo V find)
  | none, .wrap .shared T => e.readFn?.map (onTo (.wrap .shared T))
  | none, _ => none

/-- Runs an access on the guarded value that `target` leads to from a root. Where there is none, nothing
    is acquired. -/
def via (target : Borrow) (s : Store) (root : Place) (access : Place → Access α) : Access α :=
  match (target s root).outcome with
  | .error e => ⟨[], s, 0, .error e⟩
  | .ok none => .without s .absent
  | .ok (some g) => access g

/-! ### Ways -/

/-- What is done with a guarded value. -/
inductive Use where
  | read
  | write
deriving DecidableEq, Repr

def Use.name : Use → String
  | read => "read"
  | write => "write"

/-- What an access starts from: a guarded value, a handle that may own one, or a root with an accessor that leads to
    the one or the other. -/
inductive Start where
  | value (g : Place)
  | handle (p : Place)
  | root {R V : Ty} (toGuard : Erased R V) (p : Place)

namespace Start

def place : Start → Place
  | value p | handle p | root _ p => p

/-- What leads from there to the guarded value, if it can be reached that way for the use. -/
def target? (use : Use) : Start → Option Borrow
  | value _ => some whole
  | handle _ => some fun s p => .done (behindHandle s p)
  | root e _ =>
    match use with
    | .read => readTarget? e
    | .write => writeTarget? e

end Start

/-- What is looked for behind a guard: the whole value, or what an accessor finds in it. -/
inductive Inside where
  | whole
  | path {T V : Ty} (e : Erased T V)

/-- What finds it, if the accessor is one for the use. -/
def Inside.find? (use : Use) : Inside → Option Borrow
  | whole => some Guard.whole
  | path e =>
    match use with
    | .read => e.readFn?
    | .write => e.writeFn?

/-- How an access gets to a value: what it starts from, what comes of the lock, and what it looks for behind the
    guard. Only what can be reached for the use has a way to it. -/
structure Way (use : Use) where
  lock : Acquisition
  start : Start
  inside : Inside
  starts : (start.target? use).isSome = true
  finds : (inside.find? use).isSome = true

namespace Way
variable {use : Use}

def of? (use : Use) (lock : Acquisition) (start : Start) (inside : Inside) : Option (Way use) :=
  if h : (start.target? use).isSome = true ∧ (inside.find? use).isSome = true then
    some ⟨lock, start, inside, h.1, h.2⟩
  else none

def target (w : Way use) : Borrow := (w.start.target? use).get w.starts

def find (w : Way use) : Borrow := (w.inside.find? use).get w.finds

def read (w : Way .read) (s : Store) (f : Store → Place → Except String α) : Access α :=
  via w.target s w.start.place fun g => Guard.read w.lock s g w.find f

def write (w : Way .write) (s : Store) (f : Store → Place → Store × Except String α) : Access α :=
  via w.target s w.start.place fun g => Guard.write w.lock s g w.find f

end Way

end Guard
end Accessors
