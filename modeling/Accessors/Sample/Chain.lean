import Accessors.Sample.Types

/-! # A chain of records

Three records, each with a child and a flag of its own, and from each of them one leg for every flavor to
the child. The legs record their calls. Failable legs and case legs find the child only while the flag of
their record is set, and a case leg builds a record around a child with the flag set. -/

namespace Accessors.Sample

def num : Form := .record "w::Num" .labeled ["x", "ok"] [int, .flag "bool"]

def pt : Form := .record "w::Pt" .labeled ["num", "ok"] [num, .flag "bool"]

def seg : Form := .record "w::Seg" .labeled ["pt", "ok"] [pt, .flag "bool"]

namespace Chain
variable (R V : Ty)

def child (p : Place) : Place := p.item 0

def isSet (s : Store) (p : Place) : Bool := s.get? (p.item 1) == some (.flag true)

/-- The child of the record at a place while its flag is set. -/
def child? (s : Store) (p : Place) : Option Place := if isSet s p then some (child p) else none

/-- A record around a child. -/
def around (v : Value) : Value := .items [v, .flag true]

/-- A function that finds the child while the flag is set, under a name. -/
def finder (name : String) (s : Store) (p : Place) : Run (Option Place) := .call name (child? s p)

def leg : (f : Flavor) → Accessor f R V
  | .readable => .readable fun _ p => .call "readable" (child p)
  | .writable => .writable fun _ p => .call "writable" (child p)
  | .failableReadable => .failableReadable (finder "failable_readable")
  | .failableWritable => .failableWritable (finder "failable_writable")
  | .owned => .owned fun s v => .call "owned" (inVariable s v fun s p => s.takeOut (child p))
  | .failableOwned => .failableOwned fun s v =>
      .call "failable_owned" (inVariable s v fun s p =>
        match child? s p with
        | some q => ((s.takeOut q).1, some (s.takeOut q).2)
        | none => (s, none))
  | .caseReadable => .caseReadable (finder "case get") fun v => .call "case embed" (around v)
  | .caseWritable =>
    .caseWritable (finder "case get") (finder "case get_mut") fun v => .call "case embed" (around v)

/-- One leg for every flavor, under the name of the flavor. -/
def legs : List (String × Leg R) := Flavor.all.map fun f => (f.name, .fixed (.of (leg R V f)))

end Chain

/-- The form of a plain type of the chain, or of another sample type. -/
def formOf? (name : String) : Option Form :=
  match name with
  | "w::Seg" => some seg
  | "w::Pt" => some pt
  | "w::Num" => some num
  | _ => form? name

/-- The named legs from each sample type. -/
def legs : Legs := .ofPlain fun n R =>
  match n with
  | "w::Seg" => Chain.legs R pt.type
  | "w::Pt" => Chain.legs R num.type
  | "w::Num" => Chain.legs R int.type
  | _ => ((form? n).map (·.legs R)).getD []

end Accessors.Sample
