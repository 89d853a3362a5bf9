import Accessors.Value

/-! # The contents of containers

Sets, mappings and queues keep their items in an order of their own, whatever the order in which the
items came. An element joins a set once, and a key is bound to the value that came last. -/

namespace Accessors.Value

/-- An element joins the ordered elements of a set, unless it is one of them. -/
def join (v : Value) : List Value → List Value
  | [] => [v]
  | w :: ws =>
    match order v w with
    | .lt => v :: w :: ws
    | .eq => w :: ws
    | .gt => w :: join v ws

/-- A key is bound to a value among the entries of a mapping, in the order of the keys. -/
def bind (k v : Value) : List Value → List Value
  | [] => [entry k v]
  | entry l w :: es =>
    match order k l with
    | .lt => entry k v :: entry l w :: es
    | .eq => entry l v :: es
    | .gt => entry l w :: bind k v es
  | e :: es => e :: bind k v es

/-- An item joins a queue, behind those that are not smaller. -/
def enqueue (v : Value) : List Value → List Value
  | [] => [v]
  | w :: ws => if order w v = .lt then v :: w :: ws else w :: enqueue v ws

def setOf (vs : List Value) : List Value := vs.foldl (fun ws v => join v ws) []

def mappingOf (kvs : List (Value × Value)) : List Value :=
  kvs.foldl (fun es kv => bind kv.1 kv.2 es) []

def queueOf (vs : List Value) : List Value := vs.foldl (fun ws v => enqueue v ws) []

end Accessors.Value
