import Accessors.Flavor
import Accessors.Run
import Accessors.Ty

/-! # Accessors

An accessor leads from values of a root type to values of another type. Its flavor says what it can do:
lend the value for reading, lend it for writing, take it away, or build a root from a value. It holds
exactly the functions of its flavor. A total flavor always has a result; a failable one may have none.

What is lent is a place: a borrowing function is given the place of the root and answers the place of
the value. What is taken is a value: an owning function is given the root itself. -/

namespace Accessors

/-- The result of a step: the thing itself if the step is total, and optional otherwise. -/
def Found : Bool → Type → Type
  | true, α => α
  | false, α => Option α

namespace Found
variable {α β : Type}

def toOption : {total : Bool} → Found total α → Option α
  | true, a => some a
  | false, o => o

def map (f : α → β) : {total : Bool} → Found total α → Found total β
  | true, a => f a
  | false, o => Option.map f o

/-- The result of a step that is total exactly if another one is. -/
def cast {s t : Bool} (h : s = t) (x : Found s α) : Found t α := h ▸ x

/-- Goes on with what was found. A total step is not tested; after one that found nothing the next one
    is not run. -/
def andThen : {s t : Bool} → Found s α → (α → Run (Found t β)) → Run (Found (s && t) β)
  | true, _, a, f => f a
  | false, _, none, _ => Run.done none
  | false, _, some a, f => (f a).map toOption

end Found

/-- An accessor of a flavor from a root type to a value type. -/
structure Accessor (f : Flavor) (R V : Ty) where
  /-- Where the value is, to read it. -/
  read : f.reads = true → Store → Place → Run (Found f.total Place)
  /-- Where the value is, to write it. -/
  write : f.writes = true → Store → Place → Run (Found f.total Place)
  /-- The value, taken out of a root. -/
  take : f.owns = true → Store → Value → Run (Store × Found f.total Value)
  /-- A root with the given value in it. -/
  embed : f.isCase = true → Value → Run Value

namespace Accessor
variable {R M V : Ty}

/-- An accessor that always finds the value to read. -/
def readable (get : Store → Place → Run Place) : Accessor .readable R V where
  read _ := get
  write h := nomatch h
  take h := nomatch h
  embed h := nomatch h

def writable (get : Store → Place → Run Place) : Accessor .writable R V where
  read h := nomatch h
  write _ := get
  take h := nomatch h
  embed h := nomatch h

def failableReadable (get : Store → Place → Run (Option Place)) : Accessor .failableReadable R V where
  read _ := get
  write h := nomatch h
  take h := nomatch h
  embed h := nomatch h

def failableWritable (get : Store → Place → Run (Option Place)) : Accessor .failableWritable R V where
  read h := nomatch h
  write _ := get
  take h := nomatch h
  embed h := nomatch h

def owned (take : Store → Value → Run (Store × Value)) : Accessor .owned R V where
  read h := nomatch h
  write h := nomatch h
  take _ := take
  embed h := nomatch h

def failableOwned (take : Store → Value → Run (Store × Option Value)) : Accessor .failableOwned R V where
  read h := nomatch h
  write h := nomatch h
  take _ := take
  embed h := nomatch h

def caseReadable (get : Store → Place → Run (Option Place)) (embed : Value → Run Value) :
    Accessor .caseReadable R V where
  read _ := get
  write h := nomatch h
  take h := nomatch h
  embed _ := embed

def caseWritable (get getMut : Store → Place → Run (Option Place)) (embed : Value → Run Value) :
    Accessor .caseWritable R V where
  read _ := get
  write _ := getMut
  take h := nomatch h
  embed _ := embed

/-- The place of the value to read, as an option. -/
def find {f : Flavor} (a : Accessor f R V) (h : f.reads = true) (s : Store) (p : Place) :
    Run (Option Place) :=
  (a.read h s p).map Found.toOption

def findMut {f : Flavor} (a : Accessor f R V) (h : f.writes = true) (s : Store) (p : Place) :
    Run (Option Place) :=
  (a.write h s p).map Found.toOption

def findOwned {f : Flavor} (a : Accessor f R V) (h : f.owns = true) (s : Store) (v : Value) :
    Run (Store × Option Value) :=
  (a.take h s v).map fun r => (r.1, r.2.toOption)

/-- The accessor under another way of counting its own owners, which changes none of its functions. -/
def rebind {f : Flavor} (a : Accessor f R V) : Accessor f R V :=
  ⟨a.read, a.write, a.take, a.embed⟩

end Accessor
end Accessors
