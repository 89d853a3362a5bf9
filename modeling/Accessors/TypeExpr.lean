/-! # Type expressions

A declared type as it is written: a name applied to arguments, or a name alone. -/

namespace Accessors

/-- A type name with its arguments. -/
inductive TypeExpr where
  | node (name : String) (args : List TypeExpr)
deriving Repr, Inhabited

namespace TypeExpr

def name : TypeExpr → String
  | node n _ => n

def args : TypeExpr → List TypeExpr
  | node _ as => as

def atom (name : String) : TypeExpr := node name []

mutual

def decEq : (s t : TypeExpr) → Decidable (s = t)
  | node m as, node n bs =>
    match decEqString m n, decEqList as bs with
    | isTrue h, isTrue h' => isTrue (by rw [h, h'])
    | isFalse h, _ => isFalse (fun e => h (by injection e))
    | _, isFalse h => isFalse (fun e => h (by injection e))

def decEqList : (ss ts : List TypeExpr) → Decidable (ss = ts)
  | [], [] => isTrue rfl
  | [], _ :: _ => isFalse (by simp)
  | _ :: _, [] => isFalse (by simp)
  | s :: ss, t :: ts =>
    match decEq s t, decEqList ss ts with
    | isTrue h, isTrue h' => isTrue (by rw [h, h'])
    | isFalse h, _ => isFalse (fun e => h (by injection e))
    | _, isFalse h => isFalse (fun e => h (by injection e))

def decEqString (m n : String) : Decidable (m = n) := inferInstance

end

instance : DecidableEq TypeExpr := decEq

mutual

/-- The written form: the arguments follow the name between angle brackets, separated by a comma and
    a space; a bare name has no brackets. -/
def text : TypeExpr → String
  | node n [] => n
  | node n (a :: as) => n ++ "<" ++ text a ++ textRest as

/-- The written form of the arguments after the first, with the closing bracket. -/
def textRest : List TypeExpr → String
  | [] => ">"
  | a :: as => ", " ++ text a ++ textRest as

end

instance : ToString TypeExpr := ⟨text⟩

end TypeExpr
end Accessors
