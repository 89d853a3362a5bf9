import Accessors.Form
import Accessors.Route
import Accessors.UnionCase
import Accessors.Wrapper.Paths

/-! # The legs of a form

The members of a record and the cases of a union, read off the form of its values, and with them the
named legs that start at a type. -/

namespace Accessors

namespace Form

/-- The members of a record, each with every accessor its type offers. -/
def members : Form → List Member
  | record _ _ ls fs => (ls.zip fs).zipIdx.map fun lf => ⟨lf.1.1, lf.2, lf.1.2.type, .all⟩
  | _ => []

/-- The cases of a union, each with every accessor its payload offers. -/
def cases : Form → List UnionCase
  | union _ _ ls fs _ => (ls.zip fs).zipIdx.map fun lf =>
      ⟨lf.1.1, lf.2, if lf.1.2.isUnit then .unit else .single lf.1.2.type, .all⟩
  | _ => []

/-- The named legs from a type whose values are written in a form. -/
def legs (f : Form) (R : Ty) : List (String × Leg R) :=
  (f.members.map (·.legs R)).flatten ++ (f.cases.map (·.legs R)).flatten

end Form

/-- The named legs from a type: the steps of a wrapper, or the legs that a plain type has. -/
def Legs.ofPlain (plain : String → (R : Ty) → List (String × Leg R)) : Legs
  | .wrap w t => WrapperPath.legs ⟨w, t⟩
  | .plain n => plain n (.plain n)

end Accessors
