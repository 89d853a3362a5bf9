import Accessors.Sample.Types

/-! # Sample criteria

Criteria for employees and for numbers, by which a query can be narrowed. -/

namespace Accessors.Sample

/-- A criterion for an item. -/
inductive Criterion where
  | always
  | never
  | hasEmail
  | nameIs (name : String)
  | older (age : Int)
  | younger (age : Int)
  | atLeast (n : Int)
  | below (n : Int)
  | multiple (n : Int)
deriving DecidableEq, Repr

/-- The criterion of a name, with the number or the text that it compares with. The number is a wide one, so it
may lie beyond every age and score. -/
def Criterion.named? (name : String) (operand : Option Value) : Option Criterion :=
  match name, operand.map (Value.fitted (.atom "long")) with
  | "all", none => some always
  | "none", none => some never
  | "has_email", none => some hasEmail
  | "name_is", some (.text n) => some (nameIs n)
  | "older", some (.int n) => some (older n)
  | "younger", some (.int n) => some (younger n)
  | "at_least", some (.int n) => some (atLeast n)
  | "below", some (.int n) => some (below n)
  | "multiple", some (.int n) => some (multiple n)
  | _, _ => none

/-- A criterion for employees looks at one field, and a criterion for numbers at the number. -/
def Criterion.holds : Criterion → Value → Bool
  | always, _ => true
  | never, _ => false
  | hasEmail, .items [_, _, email] => email != .empty
  | nameIs n, .items [name, _, _] => name == .text n
  | older n, .items [_, .int age, _] => n < age
  | younger n, .items [_, .int age, _] => age < n
  | atLeast n, .int v => n ≤ v
  | below n, .int v => v < n
  | multiple n, .int v => v.tmod n == 0
  | _, _ => false

end Accessors.Sample
