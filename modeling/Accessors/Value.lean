/-! # Values

What variables and cells hold. One kind of value serves many types: an engaged optional, an owning
pointer, a success, a guarded and a tagged value all hold one value, and containers, tuples and records
all hold a list of items. A shared handle names the cell its value lives in.

A mapping holds one entry per key, in the order of the keys, and a set one item per element, in their
order. A queue holds its items in the order in which they would leave it. -/

namespace Accessors

/-- What a variable or a cell holds. -/
inductive Value where
  | int (n : Int)
  | text (s : String)
  | flag (b : Bool)
  /-- An empty optional or a pointer to nothing. -/
  | empty
  /-- A wrapper with one value inside. -/
  | holding (v : Value)
  /-- A guarded value, poisoned or not. -/
  | guarded (poisoned : Bool) (v : Value)
  /-- A failure in place of a success. -/
  | failed (code : Int)
  /-- The items of a container, or the fields of a tuple or a record. -/
  | items (vs : List Value)
  /-- A key with its value. -/
  | entry (key value : Value)
  /-- The active alternative of a union. -/
  | alternative (index : Nat) (v : Value)
  /-- A handle that owns a cell. -/
  | shared (cell : Nat)
  /-- A handle that watches a cell. -/
  | weak (cell : Nat)
  /-- What is left behind when a value is taken away. -/
  | moved
deriving Repr, Inhabited

namespace Value

/-- The value without content. -/
def unit : Value := items []

mutual

/-- Whether two values are the same. -/
def same : Value → Value → Bool
  | int m, int n => m == n
  | text s, text t => s == t
  | flag b, flag c => b == c
  | empty, empty => true
  | holding v, holding w => same v w
  | guarded b v, guarded c w => b == c && same v w
  | failed m, failed n => m == n
  | items vs, items ws => sameItems vs ws
  | entry k v, entry l w => same k l && same v w
  | alternative i v, alternative j w => i == j && same v w
  | shared c, shared d => c == d
  | weak c, weak d => c == d
  | moved, moved => true
  | _, _ => false

def sameItems : List Value → List Value → Bool
  | [], [] => true
  | v :: vs, w :: ws => same v w && sameItems vs ws
  | _, _ => false

end

mutual

theorem same_iff : ∀ v w : Value, same v w = true ↔ v = w
  | holding v, w => by cases w <;> simp [same, same_iff v]
  | guarded b v, w => by cases w <;> simp [same, same_iff v]
  | items vs, w => by cases w <;> simp [same, sameItems_iff vs]
  | entry k v, w => by cases w <;> simp [same, same_iff k, same_iff v]
  | alternative i v, w => by cases w <;> simp [same, same_iff v]
  | int n, w => by cases w <;> simp [same]
  | text s, w => by cases w <;> simp [same]
  | flag b, w => by cases w <;> simp [same]
  | empty, w => by cases w <;> simp [same]
  | failed n, w => by cases w <;> simp [same]
  | shared c, w => by cases w <;> simp [same]
  | weak c, w => by cases w <;> simp [same]
  | moved, w => by cases w <;> simp [same]

theorem sameItems_iff : ∀ vs ws : List Value, sameItems vs ws = true ↔ vs = ws
  | [], ws => by cases ws <;> simp [sameItems]
  | v :: vs, ws => by cases ws <;> simp [sameItems, same_iff v, sameItems_iff vs]

end

instance : DecidableEq Value := fun v w => decidable_of_iff (same v w = true) (same_iff v w)

mutual

/-- The order of keys and elements: numbers by size, texts by their characters, tuples by their first
    difference. -/
def order : Value → Value → Ordering
  | int m, int n => compare m n
  | text s, text t => compare s t
  | items vs, items ws => orderItems vs ws
  | _, _ => .eq

def orderItems : List Value → List Value → Ordering
  | [], [] => .eq
  | [], _ :: _ => .lt
  | _ :: _, [] => .gt
  | v :: vs, w :: ws => (order v w).then (orderItems vs ws)

end

mutual

/-- The number of owning handles of a cell inside a value. -/
def owners (c : Nat) : Value → Nat
  | holding v => owners c v
  | guarded _ v => owners c v
  | items vs => ownersIn c vs
  | entry k v => owners c k + owners c v
  | alternative _ v => owners c v
  | shared d => if d = c then 1 else 0
  | _ => 0

def ownersIn (c : Nat) : List Value → Nat
  | [] => 0
  | v :: vs => owners c v + ownersIn c vs

end

end Value
end Accessors
