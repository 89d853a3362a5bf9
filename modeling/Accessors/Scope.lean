import Accessors.Flavor.Set

/-! # Scopes

A scope says which flavors are wanted for a member or a case. The three narrow scopes are the three
families, so they split the flavors among themselves. -/

namespace Accessors

/-- Which flavors are wanted. -/
inductive Scope where
  | all
  | readable
  | writable
  | owned
deriving DecidableEq, Repr

namespace Scope

def name : Scope → String
  | all => "all"
  | readable => "readable"
  | writable => "writable"
  | owned => "owned"

/-- The scope that a word stands for. -/
def ofName? : String → Option Scope
  | "all" => some all
  | "readable" => some readable
  | "writable" => some writable
  | "owned" => some owned
  | _ => none

instance : Named Scope where
  first := all
  name := name
  kind := "method scope"
  ofName? := ofName?

/-- The flavors a scope keeps. -/
def filter : Scope → FlavorSet
  | all => .ofList Flavor.all
  | readable => .ofList [.readable, .failableReadable, .caseReadable]
  | writable => .ofList [.writable, .failableWritable, .caseWritable]
  | owned => .ofList [.owned, .failableOwned]

def keeps (s : Scope) (f : Flavor) : Bool := s.filter.contains f

end Scope
end Accessors
