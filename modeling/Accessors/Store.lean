import Accessors.Value.Path

/-! # The store

The variables in use, the cells that shared handles own, and the owners that cells have outside of both.
A cell lives as long as it has an owner; the contents of a cell that has none own nothing.

A place says where a value is: in which variable or cell, and which steps inside. -/

namespace Accessors

/-- Where the steps to a value begin. -/
inductive Base where
  | slot (index : Nat)
  | cell (index : Nat)
deriving DecidableEq, Repr

/-- Where a value is. -/
structure Place where
  base : Base
  path : List Value.Step
deriving DecidableEq, Repr

namespace Place

def slot (i : Nat) : Place := ⟨.slot i, []⟩

def cell (c : Nat) : Place := ⟨.cell c, []⟩

def step (p : Place) (s : Value.Step) : Place := ⟨p.base, p.path ++ [s]⟩

def inside (p : Place) : Place := p.step .inside

def item (p : Place) (i : Nat) : Place := p.step (.item i)

end Place

/-- The variables in use, the cells, and the outside owners of cells. -/
structure Store where
  slots : List Value
  cells : List Value
  held : List Nat
deriving DecidableEq, Repr

namespace Store

def empty : Store := ⟨[], [], []⟩

/-- What a variable or a cell holds. -/
def root? (s : Store) : Base → Option Value
  | .slot i => s.slots[i]?
  | .cell c => s.cells[c]?

/-- The store after a variable or a cell gets another value. -/
def setRoot (s : Store) (b : Base) (v : Value) : Store :=
  match b with
  | .slot i => { s with slots := s.slots.set i v }
  | .cell c => { s with cells := s.cells.set c v }

def get? (s : Store) (p : Place) : Option Value := (s.root? p.base).bind (·.get? p.path)

/-- The value at a place, or what a taken value leaves behind if there is none. -/
def value (s : Store) (p : Place) : Value := (s.get? p).getD .moved

/-- The store after a value is put at a place. -/
def set (s : Store) (p : Place) (v : Value) : Store :=
  match s.root? p.base with
  | some w => s.setRoot p.base (w.set p.path v)
  | none => s

section
variable {s : Store} {p : Place} {b : Base} {u v w : Value}

theorem root?_setRoot (h : s.root? b = some u) : (s.setRoot b v).root? b = some v := by
  cases b <;> simp only [root?] at h <;> obtain ⟨hi, -⟩ := List.getElem?_eq_some_iff.mp h <;>
    simp [root?, setRoot, hi]

theorem setRoot_self (h : s.root? b = some u) : s.setRoot b u = s := by
  cases b <;> simp only [root?] at h <;> obtain ⟨hi, rfl⟩ := List.getElem?_eq_some_iff.mp h <;>
    simp [setRoot]

theorem setRoot_setRoot : (s.setRoot b v).setRoot b w = s.setRoot b w := by
  cases b <;> simp [setRoot]

theorem exists_root?_of_get? (h : s.get? p = some u) :
    ∃ r, s.root? p.base = some r ∧ r.get? p.path = some u :=
  Option.bind_eq_some_iff.mp h

theorem get?_set (h : s.get? p = some u) : (s.set p v).get? p = some v := by
  obtain ⟨r, hr, hu⟩ := exists_root?_of_get? h
  simp only [set, hr, get?, root?_setRoot hr, Option.bind_some]
  exact Value.get?_set hu

theorem set_self (h : s.get? p = some u) : s.set p u = s := by
  obtain ⟨r, hr, hu⟩ := exists_root?_of_get? h
  simp only [set, hr, Value.set_self hu, setRoot_self hr]

theorem set_set : (s.set p v).set p w = s.set p w := by
  cases hr : s.root? p.base with
  | none => simp [set, hr]
  | some r => simp only [set, hr, root?_setRoot hr, Value.set_set, setRoot_setRoot]

theorem get?_step (q : Value.Step) : s.get? (p.step q) = (s.get? p).bind (·.child? q) := by
  simp only [get?, Place.step]
  cases s.root? p.base with
  | none => rfl
  | some r =>
    simp only [Option.bind_some, Value.get?_append]
    cases r.get? p.path with
    | none => rfl
    | some t => cases h : t.child? q <;> simp [Value.get?, h]

theorem value_eq (h : s.get? p = some u) : s.value p = u := by
  simp [value, h]

end

/-- The value at a place, taken away. -/
def takeOut (s : Store) (p : Place) : Store × Value := (s.set p .moved, s.value p)

/-- A new variable. -/
def push (s : Store) (v : Value) : Store × Place :=
  ({ s with slots := s.slots ++ [v] }, .slot s.slots.length)

/-- The latest variable goes out of use. -/
def pop (s : Store) : Store := { s with slots := s.slots.dropLast }

@[simp] theorem pop_push (s : Store) (v : Value) : (s.push v).1.pop = s := by
  simp [push, pop]

@[simp] theorem get?_push (s : Store) (v : Value) : (s.push v).1.get? (s.push v).2 = some v := by
  simp [push, get?, Place.slot, root?, Value.get?]

/-- A new cell. -/
def alloc (s : Store) (v : Value) : Store × Nat :=
  ({ s with cells := s.cells ++ [v] }, s.cells.length)

/-- The owning handles of a cell in variables and cells, with its outside owners. -/
def handles (s : Store) (c : Nat) : Nat :=
  Value.ownersIn c s.slots + Value.ownersIn c s.cells + s.held.count c

/-- Cells without owners give up what they hold. -/
def release (s : Store) : Store :=
  { s with cells := s.cells.mapIdx fun c v => if s.handles c = 0 then .moved else v }

/-- Cells give up what they hold until every cell that holds something has an owner. Each round ends
    with fewer such cells or is the last, so as many rounds as there are cells are enough. -/
def settle (s : Store) : Store := (List.range s.cells.length).foldl (fun s _ => s.release) s

/-- The number of owners of a cell: handles in dead cells do not count. -/
def owners (s : Store) (c : Nat) : Nat := s.settle.handles c

def alive (s : Store) (c : Nat) : Bool := s.owners c != 0

end Store
end Accessors
