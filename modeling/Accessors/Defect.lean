import Accessors.TypeExpr
import Accessors.Scope

/-! # Defects

Why a type cannot be classified or a member or case cannot be planned, and how the complaint reads. -/

namespace Accessors

/-- How the payload of a case is written. -/
inductive PayloadStyle where
  | none
  | single
  | positional
  | labeled
deriving DecidableEq, Repr

def PayloadStyle.name : PayloadStyle → String
  | none => "none"
  | single => "single"
  | positional => "positional"
  | labeled => "labeled"

/-- What is wrong with the description of a case. -/
inductive CaseFault where
  | fieldsWithoutPayload
  | notOneField
  | positionalArity
  | labeledArity
  | namelessField
  | noRecord
deriving DecidableEq, Repr

/-- How a faulty case description is complained about. -/
def CaseFault.reason : CaseFault → String
  | fieldsWithoutPayload => "a payload-less case has no fields"
  | notOneField => "a single-payload case has exactly one field"
  | positionalArity => "arity does not match the positional fields"
  | labeledArity => "arity does not match the labeled fields"
  | namelessField => "labeled fields need names"
  | noRecord => "labeled payload has no record type"

/-- Why classification or planning failed. -/
inductive Defect where
  /-- A wrapper was written with too few arguments. -/
  | tooFewArguments (name : String) (needed given : Nat)
  /-- A combination inside a wrapper that does not merge with it. -/
  | nestedTooDeeply (type : TypeExpr)
  /-- A site carries more than one annotation. -/
  | manyAnnotations (site : String) (scopes : List Scope)
  /-- A case description contradicts itself. -/
  | malformedCase (site : String) (fault : CaseFault)
deriving DecidableEq, Repr

/-- The annotations of a site, each after a space. -/
def annotationText (scopes : List Scope) : String :=
  scopes.foldr (fun s t => " " ++ s.name ++ t) ""

def Defect.message : Defect → String
  | tooFewArguments name needed given =>
    name ++ " needs " ++ toString needed ++ " type arguments, got " ++ toString given
  | nestedTooDeeply type => "wrapper nested too deeply: " ++ type.text
  | manyAnnotations site scopes =>
    "multiple scope annotations on " ++ site ++ ":" ++ annotationText scopes
  | malformedCase site fault => "malformed case " ++ site ++ ": " ++ fault.reason

end Accessors
