import Accessors.TypeExpr
import Accessors.Value

/-! # Widths of numbers

The numbers of a type have a width. A number that does not fit is cut to its low bits, read as a signed
number. -/

namespace Accessors

/-- How many bits a number has. -/
inductive Width where
  | bits32
  | bits64
deriving DecidableEq, Repr

namespace Width

/-- The number of this width with the same low bits. -/
def fit : Width → Int → Int
  | bits32, n => (Int32.ofInt n).toInt
  | bits64, n => (Int64.ofInt n).toInt

theorem fit_fit (w : Width) (n : Int) : w.fit (w.fit n) = w.fit n := by
  cases w <;> simp [fit]

theorem fit_bits32_of_range {n : Int} (h : -2147483648 ≤ n) (h' : n < 2147483648) :
    bits32.fit n = n :=
  Int32.toInt_ofInt_of_le h h'

theorem fit_bits64_of_range {n : Int} (h : -9223372036854775808 ≤ n) (h' : n < 9223372036854775808) :
    bits64.fit n = n :=
  Int64.toInt_ofInt_of_le h h'

/-- The width of the numbers of a type, if it is a type of numbers. -/
def ofType? (t : TypeExpr) : Option Width :=
  if t = .atom "int" then some bits32 else if t = .atom "long" then some bits64 else none

end Width

/-- A key as one of the given type. -/
def Value.fitted (type : TypeExpr) : Value → Value
  | .int n =>
    match Width.ofType? type with
    | some w => .int (w.fit n)
    | none => .int n
  | v => v

theorem Value.fitted_fitted (type : TypeExpr) (v : Value) :
    (v.fitted type).fitted type = v.fitted type := by
  cases v with
  | int n =>
    cases h : Width.ofType? type with
    | none => simp [fitted, h]
    | some w => simp [fitted, h, Width.fit_fit]
  | _ => rfl

end Accessors
