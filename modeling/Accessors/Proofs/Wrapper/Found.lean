import Accessors.Proofs.Store.Agreement
import Accessors.Proofs.Wrapper.Steps

/-! # What is found

The value that a step finds depends only on the value it starts from, and for a handle also on what its cell holds:
not on where that value is, nor on what else there is. So reading a value and taking it away are two ways to the
same value, although the second one moves what the first one lends. -/

namespace Accessors

namespace Value

/-- The one value inside, if there is one. -/
def content? : Value → Option Value
  | holding v => some v
  | _ => none

/-- The cell that the value owns, if it is a handle. -/
def cell? : Value → Option Nat
  | shared c => some c
  | _ => none

theorem owners_pos_of_cell? {v : Value} {c : Nat} (h : v.cell? = some c) : 0 < v.owners c := by
  cases v <;> cases h
  simp [owners]

/-- The items of the value, if it has any. -/
def list : Value → List Value
  | items vs => vs
  | _ => []

end Value

namespace Store
variable {s t : Store} {p : Place}

theorem value_step (s : Store) (p : Place) (a : Value.Step) :
    s.value (p.step a) = ((s.value p).child? a).getD .moved := by
  simp only [value, get?_step]
  cases s.get? p with
  | none => cases a <;> rfl
  | some v => rfl

theorem value_inside {v : Value} (h : s.value p = .holding v) : s.value p.inside = v := by
  rw [Place.inside, value_step, h]
  rfl

theorem value_item (s : Store) (p : Place) (i : Nat) : s.value (p.item i) = ((s.value p).list[i]?).getD .moved := by
  rw [Place.item, value_step]
  cases s.value p <;> rfl

theorem value_cell (s : Store) (c : Nat) : s.value (.cell c) = (s.cells[c]?).getD .moved := by
  rw [value, get?_cell]

theorem items_eq (s : Store) (p : Place) : s.items p = (s.value p).list := by
  rw [items, value]
  cases s.get? p with
  | none => rfl
  | some v => cases v <;> rfl

theorem handle?_eq (s : Store) (p : Place) : s.handle? p = (s.value p).cell? := by
  rw [handle?, value]
  cases s.get? p with
  | none => rfl
  | some v => cases v <;> rfl

theorem map_value_inside? (s : Store) (p : Place) : (s.inside? p).map s.value = (s.value p).content? := by
  cases h : s.value p with
  | holding v =>
    have hp : s.get? p = some (.holding v) := by
      rw [value] at h
      cases hg : s.get? p with
      | none => simp [hg] at h
      | some u => simpa [hg] using h
    rw [inside?_eq_some.mpr ⟨rfl, v, hp⟩, Option.map_some, value_inside h]
    rfl
  | _ =>
    have hp : s.inside? p = none := by
      rw [inside?]
      split
      · rename_i hg
        rw [value_eq hg] at h
        cases h
      · rfl
    rw [hp]
    rfl

theorem map_value_item? (s : Store) (p : Place) (i : Nat) : (s.item? p i).map s.value = (s.value p).list[i]? := by
  rw [item?, items_eq]
  split
  · rename_i hi
    rw [Option.map_some, value_item, List.getElem?_eq_getElem hi]
    rfl
  · rename_i hi
    rw [List.getElem?_eq_none (Nat.le_of_not_lt hi)]
    rfl

/-- What a step leaves that takes a value: the value, and all that the value points to. -/
structure Took (s : Store) (after : Store × Option Value) (taken : Option Value) : Prop where
  found : after.2 = taken
  pointees : ∀ v, taken = some v → SamePointee v s.cells after.1.cells

theorem Took.of_cells {after : Store × Option Value} {taken : Option Value} (h : s.Took after taken)
    (cells : s.cells = t.cells) : t.Took after taken :=
  ⟨h.found, fun v hv => cells ▸ h.pointees v hv⟩

end Store

namespace Wrapper
variable {w : Wrapper} {s t : Store} {p q : Place} {v : Value} {cells : List Value}

/-- The value that a wrapper has inside, as a value of its own. -/
def found (w : Wrapper) (cells : List Value) (v : Value) : Option Value :=
  match w with
  | optional | unique | result _ | tagged _ => v.content?
  | shared | localShared => v.cell?.map fun c => (cells[c]?).getD .moved
  | vector | deque | linkedList | priorityQueue | hashSet | orderedSet => v.list[0]?
  | hashMap _ | orderedMap _ | mutexGuarded | rwGuarded | weak => none

theorem found_of_handle (hw : w.sharing ≠ .none) :
    w.found cells v = v.cell?.map fun c => (cells[c]?).getD .moved := by
  cases w <;> first | rfl | exact absurd rfl hw

theorem found_eq_of_inside (hw : w.sharing = .none) (cells' : List Value) : w.found cells v = w.found cells' v := by
  cases w <;> first | rfl | cases hw

theorem map_value_read (w : Wrapper) (s : Store) (p : Place) :
    (w.read s p).map s.value = w.found s.cells (s.value p) := by
  cases w <;>
    first
    | rfl
    | exact s.map_value_inside? p
    | exact s.map_value_item? p 0
    | (rw [read, found, s.handle?_eq, Option.map_map]
       exact congrArg (Option.map · _) (funext s.value_cell))

theorem snd_takeFrom (s : Store) (q : Option Place) : (takeFrom s q).2 = q.map s.value := by
  cases q <;> rfl

theorem take_of_handle (hw : w.sharing ≠ .none) : w.take s p = match s.handle? p with
    | none => (s, none)
    | some c => if s.owners c = 1 then takeFrom s (some (.cell c)) else (s, some (s.value (.cell c))) := by
  cases w <;> first | rfl | exact absurd rfl hw

/-- The place that is left empty when the value inside is taken away, unless the value is copied. -/
def emptied (w : Wrapper) (s : Store) (p : Place) : Option Place :=
  match w with
  | shared | localShared => w.write s p
  | priorityQueue => none
  | _ => w.read s p

theorem fst_takeFrom (s : Store) (q : Option Place) : (takeFrom s q).1 = q.elim s (s.set · .moved) := by
  cases q <;> rfl

theorem fst_take (w : Wrapper) (s : Store) (p : Place) : (w.take s p).1 = (w.emptied s p).elim s (s.set · .moved) := by
  by_cases hw : w.sharing = .none
  · cases w <;>
      first
      | rfl
      | exact fst_takeFrom s _
      | cases hw
  · have emptied : w.emptied s p = w.write s p := by
      cases w <;> first | rfl | exact absurd rfl hw
    rw [emptied, take_of_handle hw, write_of_handle hw]
    cases s.handle? p with
    | none => rfl
    | some c =>
      simp only [Option.bind_some]
      split <;> rfl

/-- What is taken is what is read, whether it is moved or copied. -/
theorem snd_take (w : Wrapper) (s : Store) (p : Place) : (w.take s p).2 = w.found s.cells (s.value p) := by
  rw [← map_value_read]
  by_cases hw : w.sharing = .none
  · cases w <;>
      first
      | rfl
      | exact snd_takeFrom s _
      | cases hw
  · rw [take_of_handle hw, read_of_handle hw]
    cases s.handle? p with
    | none => rfl
    | some c =>
      simp only
      split <;> rfl

theorem held_take (w : Wrapper) (s : Store) (p : Place) : (w.take s p).1.held = s.held := by
  rw [fst_take]
  cases w.emptied s p with
  | none => rfl
  | some q => exact s.held_set q _

/-- Taking what a handle points to empties the cell of a sole owner. -/
theorem cells_take_of_handle (hw : w.sharing ≠ .none) : (w.take s p).1.cells =
    (s.handle? p).elim s.cells fun c => if s.owners c = 1 then s.cells.set c .moved else s.cells := by
  rw [take_of_handle hw]
  cases s.handle? p with
  | none => rfl
  | some c =>
    simp only [Option.elim_some]
    split
    · exact Store.cells_set_cell s c _
    · rfl

section
variable {i : Nat} (hp : p.base = .slot i)
include hp

/-- Taking what is inside a variable, and not behind a handle, changes no cell. -/
theorem cells_take_of_inside (hw : w.sharing = .none) : (w.take s p).1.cells = s.cells := by
  rw [fst_take]
  cases hq : w.emptied s p with
  | none => rfl
  | some q =>
    have hr : w.read s p = some q := by
      cases w <;> first | exact hq | cases hq | cases hw
    exact Store.cells_set_of_slot ((read_inside hw hr).1.1.trans hp) _

/-- What is taken, and what that leaves in the cells, depends on the value and the cells, and for a handle on their
    owners. -/
theorem take_congr (w : Wrapper) {j : Nat} (hq : q.base = .slot j) (hv : s.value p = t.value q)
    (cells : s.cells = t.cells) (owners : w.sharing ≠ .none → ∀ c, s.owners c = t.owners c) :
    (w.take s p).2 = (w.take t q).2 ∧ (w.take s p).1.cells = (w.take t q).1.cells := by
  refine ⟨by rw [snd_take, snd_take, cells, hv], ?_⟩
  by_cases hw : w.sharing = .none
  · rw [cells_take_of_inside hp hw, cells_take_of_inside hq hw, cells]
  · simp only [cells_take_of_handle hw, s.handle?_eq, t.handle?_eq, hv, cells, owners hw]

/-- Taking comes to the value that is read, and leaves all that it points to. -/
theorem took (w : Wrapper) : s.Took (w.take s p) (w.found s.cells (s.value p)) where
  found := w.snd_take s p
  pointees v h := by
    by_cases hw : w.sharing = .none
    · rw [cells_take_of_inside hp hw]
      exact .refl _ _
    · rw [cells_take_of_handle hw]
      rw [found_of_handle hw, ← s.handle?_eq] at h
      obtain ⟨c, hc, rfl⟩ := Option.map_eq_some_iff.mp h
      simp only [hc, Option.elim_some]
      split
      · rename_i sole
        cases hv : s.cells[c]? with
        | none =>
          rw [List.set_eq_of_length_le (List.getElem?_eq_none_iff.mp hv)]
          exact .refl _ _
        | some u => exact Store.samePointee_set_of_sole hp hc sole hv _
      · exact .refl _ _

end

end Wrapper
end Accessors
