import Accessors.TypeExpr

/-! # Reading type expressions

The written form of a type expression is read from left to right, one character at a time. What is
pending is the name being read or the node just closed; around it are the open nodes, innermost first,
each with the arguments it already has, latest first. -/

namespace Accessors.TypeExpr

/-- What is read before the next bracket or comma: a name, its latest character first, or a node. -/
inductive Pending where
  | name (cs : List Char)
  | closed (t : TypeExpr)
deriving Repr

/-- An open node: its name and its arguments so far, latest first. -/
structure OpenNode where
  name : String
  args : List TypeExpr
deriving Repr

/-- The state of a reader: the pending part, whether a comma was just read, and the open nodes. -/
structure Reader where
  pending : Pending
  afterComma : Bool
  outer : List OpenNode
deriving Repr

/-- The pending part as a type expression. -/
def Pending.node : Pending → TypeExpr
  | name cs => atom (String.ofList cs.reverse)
  | closed t => t

namespace Reader

/-- Nothing has been read. -/
def start : Reader := ⟨.name [], false, []⟩

/-- Reads one character. A bracket may open only after a name, only an open node can be closed or take
    another argument, and nothing but a comma or a closing bracket follows a closed node. -/
def step (r : Reader) (c : Char) : Option Reader :=
  match c, r.pending, r.outer with
  | '<', .name cs, ns => some ⟨.name [], false, ⟨String.ofList cs.reverse, []⟩ :: ns⟩
  | ',', p, n :: ns => some ⟨.name [], true, ⟨n.name, p.node :: n.args⟩ :: ns⟩
  | '>', p, n :: ns => some ⟨.closed (.node n.name (p.node :: n.args).reverse), false, ns⟩
  | ' ', .name [], ns => some ⟨.name (if r.afterComma then [] else [' ']), false, ns⟩
  | c, .name cs, ns => if c = ',' || c = '>' then none else some ⟨.name (c :: cs), false, ns⟩
  | _, _, _ => none

end Reader

/-- The type expression with the given written form. -/
def ofText? (text : String) : Option TypeExpr :=
  match text.toList.foldlM Reader.step .start with
  | some ⟨p, _, []⟩ => some p.node
  | _ => none

end Accessors.TypeExpr
