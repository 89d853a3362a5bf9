import Accessors.Value.Path

/-! # Counting owners

How the number of owning handles of a cell follows the parts of a value: a part owns no more than the whole,
and putting a value at a path exchanges what the value there before owned for what the new one owns. -/

namespace Accessors.Value
variable {c i j : Nat} {v u w : Value} {vs ws : List Value}

/-! ### Owners among some values -/

@[simp] theorem owners_moved (c : Nat) : owners c .moved = 0 := by
  simp [owners]

theorem eq_of_owners_shared (h : 0 < owners c (.shared i)) : i = c := by
  rw [owners] at h
  split at h
  · assumption
  · exact absurd h (Nat.lt_irrefl 0)

theorem ownersIn_append (c : Nat) (vs ws : List Value) :
    ownersIn c (vs ++ ws) = ownersIn c vs + ownersIn c ws := by
  induction vs with
  | nil => simp [ownersIn]
  | cons v vs ih => simp only [List.cons_append, ownersIn, ih, Nat.add_assoc]

theorem ownersIn_singleton (c : Nat) (v : Value) : ownersIn c [v] = v.owners c := by
  simp [ownersIn]

/-- Putting a value in the place of another one exchanges their owners. -/
theorem ownersIn_set_add (h : vs[i]? = some v) :
    ownersIn c (vs.set i w) + v.owners c = ownersIn c vs + w.owners c := by
  induction vs generalizing i with
  | nil => cases h
  | cons x vs ih =>
    cases i with
    | zero =>
      cases h
      simp only [List.set_cons_zero, ownersIn]
      omega
    | succ i =>
      have := ih (i := i) h
      simp only [List.set_cons_succ, ownersIn]
      omega

theorem owners_le_ownersIn (h : vs[i]? = some v) : v.owners c ≤ ownersIn c vs := by
  have := ownersIn_set_add (c := c) (w := .moved) h
  rw [owners_moved] at this
  omega

theorem owners_add_le_ownersIn (hv : vs[i]? = some v) (hu : vs[j]? = some u) (hij : i ≠ j) :
    v.owners c + u.owners c ≤ ownersIn c vs := by
  have hset := ownersIn_set_add (c := c) (w := .moved) hv
  have hle : u.owners c ≤ ownersIn c (vs.set i .moved) := by
    refine owners_le_ownersIn (i := j) ?_
    rw [List.getElem?_set_ne hij, hu]
  rw [owners_moved] at hset
  omega

theorem ownersIn_pos_iff : 0 < ownersIn c vs ↔ ∃ (i : Nat) (v : Value), vs[i]? = some v ∧ 0 < v.owners c := by
  constructor
  · intro h
    induction vs with
    | nil => simp [ownersIn] at h
    | cons x vs ih =>
      by_cases hx : 0 < x.owners c
      · exact ⟨0, x, rfl, hx⟩
      · rw [ownersIn] at h
        obtain ⟨i, v, hv, hpos⟩ := ih (by omega)
        exact ⟨i + 1, v, hv, hpos⟩
  · rintro ⟨i, v, hv, hpos⟩
    exact Nat.lt_of_lt_of_le hpos (owners_le_ownersIn hv)

theorem ownersIn_mapIdx_le (vs : List Value) (f : Nat → Value → Value) (h : ∀ i v, (f i v).owners c ≤ v.owners c) :
    ownersIn c (vs.mapIdx f) ≤ ownersIn c vs := by
  induction vs generalizing f with
  | nil => simp [ownersIn]
  | cons v vs ih =>
    rw [List.mapIdx_cons, ownersIn, ownersIn]
    exact Nat.add_le_add (h 0 v) (ih _ fun i => h (i + 1))

theorem ownersIn_mapIdx_congr {f g : Nat → Value → Value}
    (h : ∀ i v, vs[i]? = some v → (f i v).owners c = (g i v).owners c) :
    ownersIn c (vs.mapIdx f) = ownersIn c (vs.mapIdx g) := by
  induction vs generalizing f g with
  | nil => rfl
  | cons v vs ih =>
    rw [List.mapIdx_cons, List.mapIdx_cons, ownersIn, ownersIn, h 0 v rfl, ih fun i => h (i + 1)]

/-! ### Owners inside a value -/

theorem owners_setChild {s : Step} (h : v.child? s = some u) :
    (v.setChild s w).owners c + u.owners c = v.owners c + w.owners c := by
  cases v <;> cases s <;> simp [child?] at h <;>
    first
    | (subst h; simp only [setChild, owners]; omega)
    | exact ownersIn_set_add h

theorem owners_child_le {s : Step} (h : v.child? s = some u) : u.owners c ≤ v.owners c := by
  have := owners_setChild (c := c) (w := .moved) h
  rw [owners_moved] at this
  omega

/-- What is inside a value owns no more than the value. -/
theorem owners_get?_le {ss : List Step} (h : v.get? ss = some u) : u.owners c ≤ v.owners c := by
  induction ss generalizing v with
  | nil =>
    cases h
    exact Nat.le_refl _
  | cons s ss ih =>
    simp only [get?] at h
    cases hc : v.child? s with
    | none => simp [hc] at h
    | some x =>
      simp only [hc] at h
      exact Nat.le_trans (ih h) (owners_child_le hc)

/-- Putting a value at a path exchanges its owners for those of the value there before. -/
theorem owners_set_add {ss : List Step} (h : v.get? ss = some u) :
    (v.set ss w).owners c + u.owners c = v.owners c + w.owners c := by
  induction ss generalizing v with
  | nil =>
    cases h
    rw [set]
    omega
  | cons s ss ih =>
    simp only [get?] at h
    cases hc : v.child? s with
    | none => simp [hc] at h
    | some x =>
      simp only [hc] at h
      have inner := ih h
      have outer := owners_setChild (c := c) (w := x.set ss w) hc
      simp only [set, hc]
      omega

theorem set_of_get?_eq_none {ss : List Step} (h : v.get? ss = none) (w : Value) : v.set ss w = v := by
  induction ss generalizing v with
  | nil => cases h
  | cons s ss ih =>
    simp only [get?] at h
    cases hc : v.child? s with
    | none => simp only [set, hc]
    | some u =>
      simp only [hc] at h
      simp only [set, hc, ih h, setChild_self hc]

/-- Putting a value at a path adds no owners but its own. -/
theorem owners_set_le (v w : Value) (ss : List Step) : (v.set ss w).owners c ≤ v.owners c + w.owners c := by
  induction ss generalizing v with
  | nil =>
    rw [set]
    omega
  | cons s ss ih =>
    simp only [set]
    cases hc : v.child? s with
    | none => exact Nat.le_add_right _ _
    | some u =>
      have := owners_setChild (c := c) (w := u.set ss w) hc
      have := ih u
      simp only
      omega

end Accessors.Value
