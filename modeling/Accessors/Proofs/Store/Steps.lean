import Accessors.Wrapper

/-! # What the steps of a store find

Each step of a store says where it leads and what it has seen on the way: the one value inside, the cell that
a handle owns, an item, or the value bound to a key. -/

namespace Accessors

namespace Place
variable {p q : Place}

@[simp] theorem base_inside (p : Place) : p.inside.base = p.base := rfl

@[simp] theorem base_item (p : Place) (i : Nat) : (p.item i).base = p.base := rfl

@[simp] theorem length_inside (p : Place) : p.inside.path.length = p.path.length + 1 := by
  simp [inside, step]

@[simp] theorem length_item (p : Place) (i : Nat) : (p.item i).path.length = p.path.length + 1 := by
  simp [item, step]

theorem inside_injective (h : p.inside = q.inside) : p = q := by
  obtain ⟨b, ss⟩ := p
  obtain ⟨b', ss'⟩ := q
  simp only [inside, step, mk.injEq, List.append_cancel_right_eq] at h
  obtain ⟨rfl, rfl⟩ := h
  rfl

theorem item_injective {i j : Nat} (h : p.item i = p.item j) : i = j := by
  simpa [item, step] using h

end Place

namespace Store
variable {s : Store} {p q : Place} {c i : Nat}

theorem getElem?_items (s : Store) (p : Place) (i : Nat) : (s.items p)[i]? = s.get? (p.item i) := by
  rw [Place.item, get?_step]
  simp only [items]
  cases s.get? p with
  | none => rfl
  | some v => cases v <;> rfl

/-- Whether a value is an entry with the given key. -/
def hasKey (k : Value) : Value → Bool
  | .entry l _ => l == k
  | _ => false

theorem bound?_eq (s : Store) (p : Place) (k : Value) :
    s.bound? p k = ((s.items p).findIdx? (hasKey k)).map fun i => (p.item i).inside := rfl

theorem handle?_eq_some : s.handle? p = some c ↔ s.get? p = some (.shared c) := by
  constructor
  · intro h
    unfold handle? at h
    split at h
    · rename_i hget
      cases h
      exact hget
    · cases h
  · intro h
    simp only [handle?, h]

theorem inside?_eq_some : s.inside? p = some q ↔ q = p.inside ∧ ∃ v, s.get? p = some (.holding v) := by
  constructor
  · intro h
    unfold inside? at h
    split at h
    · rename_i v hv
      exact ⟨(Option.some.inj h).symm, v, hv⟩
    · cases h
  · rintro ⟨rfl, v, hv⟩
    simp only [inside?, hv]

theorem item?_eq_some : s.item? p i = some q ↔ q = p.item i ∧ ∃ u, s.get? q = some u := by
  unfold item?
  constructor
  · intro h
    split at h
    · rename_i hi
      cases h
      exact ⟨rfl, (s.items p)[i], by rw [← getElem?_items, List.getElem?_eq_getElem hi]⟩
    · cases h
  · rintro ⟨rfl, u, hu⟩
    rw [← getElem?_items] at hu
    rw [if_pos (List.getElem?_eq_some_iff.mp hu).1]

/-- A key is bound in the entry that the look-up finds first. -/
theorem bound?_eq_some {k : Value} (h : s.bound? p k = some q) :
    ∃ i v, q = (p.item i).inside ∧ s.get? (p.item i) = some (.entry k v) := by
  rw [bound?_eq, Option.map_eq_some_iff] at h
  obtain ⟨i, hi, rfl⟩ := h
  obtain ⟨hlt, hkey, -⟩ := List.findIdx?_eq_some_iff_getElem.mp hi
  have hget : s.get? (p.item i) = some (s.items p)[i] := by
    rw [← getElem?_items, List.getElem?_eq_getElem hlt]
  generalize (s.items p)[i] = e at hkey hget
  cases e with
  | entry l v =>
    cases beq_iff_eq.mp hkey
    exact ⟨i, v, rfl, hget⟩
  | _ => cases hkey

theorem get?_cell (s : Store) (c : Nat) : s.get? (.cell c) = s.cells[c]? := by
  simp only [get?, Place.cell, root?]
  cases s.cells[c]? <;> rfl

theorem value_push (s : Store) (v : Value) : (s.push v).1.value (s.push v).2 = v :=
  value_eq (get?_push s v)

end Store
end Accessors
