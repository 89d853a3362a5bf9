import Accessors.Accessor.Erased

/-! # Queries

Filters, an offset and a limit over the sequence that one accessor finds. The offset skips items before
they are tested, and the limit caps the items that pass all tests. Where the accessor finds nothing, the
result is empty. -/

namespace Accessors

/-- A query over the sequence an accessor finds. Without a limit every item that passes is kept. -/
structure Query (R V : Ty) where
  {flavor : Flavor}
  path : Accessor flavor R V
  reads : flavor.reads = true
  filters : List (Value → Bool) := []
  skip : Nat := 0
  cap : Option Nat := none

namespace Query
variable {R V : Ty}

/-- A query over what an accessor finds, if it reads. -/
def ofErased? (e : Erased R V) : Option (Query R V) :=
  if h : e.flavor.reads = true then some { path := e.path, reads := h } else none

def filter (q : Query R V) (test : Value → Bool) : Query R V := { q with filters := q.filters ++ [test] }

def limit (q : Query R V) (n : Nat) : Query R V := { q with cap := some n }

def offset (q : Query R V) (n : Nat) : Query R V := { q with skip := n }

/-- An item that passes all tests. -/
def accepts (q : Query R V) (v : Value) : Bool := q.filters.all fun test => test v

/-- The places of the items at a place, in order. -/
def items (s : Store) (p : Place) : List Place := (List.range (s.items p).length).map p.item

/-- Goes through some items: `index` of them were seen before, and `taken` of those were kept. -/
def scan (q : Query R V) (cap : Option Nat) (s : Store) : List Place → Nat → Nat → List Place
  | [], _, _ => []
  | p :: ps, index, taken =>
    if cap.any (· ≤ taken) then []
    else if index < q.skip then scan q cap s ps (index + 1) taken
    else if q.accepts (s.value p) then p :: scan q cap s ps (index + 1) (taken + 1)
    else scan q cap s ps (index + 1) taken

/-- The items kept under a limit. -/
def select (q : Query R V) (cap : Option Nat) (s : Store) (root : Place) : Run (List Place) :=
  (q.path.find q.reads s root).map fun
    | some p => q.scan cap s (items s p) 0 0
    | none => []

/-- The places of the items that the query keeps. -/
def execute (q : Query R V) (s : Store) (root : Place) : Run (List Place) := q.select q.cap s root

def count (q : Query R V) (s : Store) (root : Place) : Run Nat :=
  (q.select q.cap s root).map List.length

/-- The place of the first item that the query keeps. -/
def first? (q : Query R V) (s : Store) (root : Place) : Run (Option Place) :=
  (q.select (some ((q.cap.getD 1).min 1)) s root).map List.head?

def any (q : Query R V) (s : Store) (root : Place) : Run Bool := (q.first? s root).map Option.isSome

end Query
end Accessors
