import Accessors.Named

/-! # Flavors of accessors

The eight capability classes of an accessor. A flavor belongs to a family: it borrows a value to read
it, borrows it to write it, or takes it away. Total flavors always find their value, failable ones may
find nothing, and case flavors are failable and can also build a whole from a part. -/

namespace Accessors

/-- What an accessor does with the value it reaches. -/
inductive Family where
  | read
  | write
  | own
deriving DecidableEq, Repr

/-- The capability class of an accessor. -/
inductive Flavor where
  | readable
  | writable
  | failableReadable
  | failableWritable
  | owned
  | failableOwned
  | caseReadable
  | caseWritable
deriving DecidableEq, Repr

def Family.name : Family → String
  | .read => "read"
  | .write => "write"
  | .own => "own"

namespace Flavor

/-- The flavors in their listing order. -/
def all : List Flavor :=
  [.readable, .writable, .failableReadable, .failableWritable, .owned, .failableOwned, .caseReadable,
    .caseWritable]

theorem mem_all (f : Flavor) : f ∈ all := by
  cases f <;> decide

def name : Flavor → String
  | readable => "readable"
  | writable => "writable"
  | failableReadable => "failable_readable"
  | failableWritable => "failable_writable"
  | owned => "owned"
  | failableOwned => "failable_owned"
  | caseReadable => "case_readable"
  | caseWritable => "case_writable"

instance : Named Flavor where
  first := readable
  name := name
  kind := "accessor flavor"
  ofName? word := all.find? (·.name == word)

def family : Flavor → Family
  | readable | failableReadable | caseReadable => .read
  | writable | failableWritable | caseWritable => .write
  | owned | failableOwned => .own

/-- A total flavor always finds its value. -/
def total : Flavor → Bool
  | readable | writable | owned => true
  | _ => false

def failable (f : Flavor) : Bool := !f.total

/-- A case flavor can also build a whole from a part. -/
def isCase : Flavor → Bool
  | caseReadable | caseWritable => true
  | _ => false

/-- The failable flavor of the same family. -/
def failableOf (f : Flavor) : Flavor :=
  match f.family with
  | .read => failableReadable
  | .write => failableWritable
  | .own => failableOwned

/-- The end of a constructor's name that shows its flavor. -/
def suffix : Flavor → String
  | readable => "_r"
  | writable => "_w"
  | failableReadable => "_fr"
  | failableWritable => "_fw"
  | owned => "_o"
  | failableOwned => "_fo"
  | caseReadable => "_case_r"
  | caseWritable => "_case_w"

/-- Flavors that lend a value for reading; a writable case also reads. -/
def reads : Flavor → Bool
  | readable | failableReadable | caseReadable | caseWritable => true
  | _ => false

def writes : Flavor → Bool
  | writable | failableWritable | caseWritable => true
  | _ => false

/-- Flavors that take a value away. -/
def owns : Flavor → Bool
  | owned | failableOwned => true
  | _ => false

/-- The flavor of `a` followed by `b`.

    Reading and writing legs join only legs of their own family. An owning leg may only lead: what
    follows works on the value it took away, so the result owns its value again. The result is total
    only if both legs are, and never a case flavor. -/
def compose (a b : Flavor) : Option Flavor :=
  match a.family with
  | .own => some (if a.failable || b.failable then failableOwned else owned)
  | fam =>
    if fam = b.family then some (if a.failable || b.failable then a.failableOf else a)
    else none

/-- The flavors after each join when `f` is followed by the listed flavors from the left; the list
    ends at the first join that is undefined. -/
def joinsLeft (f : Flavor) : List Flavor → List (Option Flavor)
  | [] => []
  | g :: gs =>
    match compose f g with
    | none => [none]
    | some k => some k :: joinsLeft k gs

/-- The flavors after each join when `f` comes after the listed flavors, nearest first. -/
def joinsRight (f : Flavor) : List Flavor → List (Option Flavor)
  | [] => []
  | g :: gs =>
    match compose g f with
    | none => [none]
    | some k => some k :: joinsRight k gs

/-- The flavor of a chain whose legs are joined from the left. -/
def composeLeft : List Flavor → Option Flavor
  | [] => none
  | f :: fs => fs.foldlM compose f

/-- The flavor of a chain whose legs are joined from the right. -/
def composeRight : List Flavor → Option Flavor
  | [] => none
  | [f] => some f
  | f :: g :: fs => (composeRight (g :: fs)).bind fun k => compose f k

end Flavor
end Accessors
