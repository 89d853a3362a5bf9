import Accessors.Proofs.Store.Liveness
import Accessors.Proofs.Store.Steps

/-! # Exclusive ownership

What a variable owns alone: the variable itself, and every cell whose one live owner is a handle in something
the variable owns alone. No other variable reaches such a cell, and no outside owner does, so neither of them sees a
change of what a variable owns alone. -/

namespace Accessors.Store
variable {s t : Store} {c d i j : Nat} {u v : Value} {b b' : Base} {p q : Place}

/-! ### Who counts as an owner -/

/-- Handles count in a variable, and in a cell while it is live. -/
def Counts (s : Store) : Base → Prop
  | .slot _ => True
  | .cell c => s.Live c

theorem live_iff_liveOwners : s.Live c ↔ 0 < s.liveOwners c := by
  rw [live_iff_owned, owners_eq_liveOwners]

theorem getElem?_liveCells (h : s.Live c) : s.liveCells[c]? = s.cells[c]? := by
  rw [← settle_cells]
  exact getElem?_settle_of_owned (live_iff_owned.mp h)

theorem owners_add_held_le_liveOwners (hb : s.root? b = some v) (counts : s.Counts b) :
    v.owners c + s.held.count c ≤ s.liveOwners c := by
  unfold liveOwners
  cases b with
  | slot i =>
    have := Value.owners_le_ownersIn (c := c) hb
    omega
  | cell d =>
    have := Value.owners_le_ownersIn (c := c) ((getElem?_liveCells counts).trans hb)
    omega

theorem owners_le_liveOwners (hb : s.root? b = some v) (counts : s.Counts b) : v.owners c ≤ s.liveOwners c :=
  Nat.le_trans (Nat.le_add_right _ _) (owners_add_held_le_liveOwners hb counts)

theorem owners_add_le_liveOwners (hb : s.root? b = some v) (hb' : s.root? b' = some u) (counts : s.Counts b)
    (counts' : s.Counts b') (hne : b ≠ b') : v.owners c + u.owners c ≤ s.liveOwners c := by
  unfold liveOwners
  cases b with
  | slot i =>
    cases b' with
    | slot j =>
      have := Value.owners_add_le_ownersIn (c := c) hb hb' fun h => hne (congrArg _ h)
      omega
    | cell e =>
      have := Value.owners_le_ownersIn (c := c) hb
      have := Value.owners_le_ownersIn (c := c) ((getElem?_liveCells counts').trans hb')
      omega
  | cell d =>
    have hd := (getElem?_liveCells counts).trans hb
    cases b' with
    | slot j =>
      have := Value.owners_le_ownersIn (c := c) hd
      have := Value.owners_le_ownersIn (c := c) hb'
      omega
    | cell e =>
      have := Value.owners_add_le_ownersIn (c := c) hd ((getElem?_liveCells counts').trans hb')
        fun h => hne (congrArg _ h)
      omega

theorem live_of_owner (hb : s.root? b = some v) (counts : s.Counts b) (h : 0 < v.owners c) : s.Live c :=
  live_iff_liveOwners.mpr (Nat.lt_of_lt_of_le h (owners_le_liveOwners hb counts))

/-! ### What a value reaches -/

/-- A value reaches the cells it owns, and those that the cells it reaches own. -/
inductive Reaches (cells : List Value) (v : Value) : Nat → Prop where
  | owned {c : Nat} (h : 0 < v.owners c) : Reaches cells v c
  | through {c d : Nat} {u : Value} (r : Reaches cells v d) (hd : cells[d]? = some u) (h : 0 < u.owners c) :
      Reaches cells v c

theorem live_of_reaches (hb : s.root? b = some v) (counts : s.Counts b) (r : Reaches s.cells v c) : s.Live c := by
  induction r with
  | owned h => exact live_of_owner hb counts h
  | through _ hd h ih => exact live_of_owner (b := .cell _) hd ih h

theorem live_of_held (h : c ∈ s.held) : s.Live c :=
  ⟨(· ∈ s.held), fun _ hd => .inr (.inl hd), h⟩

theorem live_of_reaches_held (h : d ∈ s.held) (r : Reaches s.cells (.shared d) c) : s.Live c := by
  induction r with
  | owned owns =>
    rw [Value.eq_of_owners_shared owns] at h
    exact live_of_held h
  | through _ hd owns ih => exact live_of_owner (b := .cell _) hd ih owns

/-- All that a value points to, directly or further on, is the same in other cells. -/
def SamePointee (v : Value) (cells cells' : List Value) : Prop :=
  ∀ c u, Reaches cells v c → cells[c]? = some u → cells'[c]? = some u

section
variable {cells cells' cells'' : List Value}

theorem SamePointee.refl (v : Value) (cells : List Value) : SamePointee v cells cells := fun _ _ _ h => h

theorem SamePointee.reaches (h : SamePointee v cells cells') (r : Reaches cells v c) : Reaches cells' v c := by
  induction r with
  | owned h => exact .owned h
  | through r hd h' ih => exact .through ih (h _ _ r hd) h'

theorem SamePointee.trans (h : SamePointee v cells cells') (h' : SamePointee v cells' cells'') :
    SamePointee v cells cells'' := fun c u r hc => h' c u (h.reaches r) (h c u r hc)

end

/-! ### What a variable owns alone -/

/-- A variable owns something alone. -/
inductive Exclusive (s : Store) (i : Nat) : Base → Prop where
  | slot : Exclusive s i (.slot i)
  | cell {b : Base} {v : Value} {c : Nat} (owner : Exclusive s i b) (root : s.root? b = some v)
      (owns : 0 < v.owners c) (sole : s.liveOwners c = 1) : Exclusive s i (.cell c)

theorem Exclusive.counts (h : s.Exclusive i b) : s.Counts b := by
  cases h with
  | slot => exact trivial
  | cell _ _ _ sole => exact live_iff_liveOwners.mpr (by omega)

theorem owned_of_handle? (h : s.handle? p = some c) : ∃ v, s.root? p.base = some v ∧ 0 < v.owners c := by
  obtain ⟨r, hr, hget⟩ := exists_root?_of_get? (handle?_eq_some.mp h)
  refine ⟨r, hr, ?_⟩
  have := Value.owners_get?_le (c := c) hget
  rw [Value.owners, if_pos rfl] at this
  exact this

theorem Exclusive.handle (h : s.Exclusive i p.base) (hc : s.handle? p = some c) (sole : s.owners c = 1) :
    s.Exclusive i (.cell c) := by
  obtain ⟨v, hv, owns⟩ := owned_of_handle? hc
  exact .cell h hv owns ((owners_eq_liveOwners s c).symm.trans sole)

/-- Only the one variable reaches a cell that it owns alone. -/
theorem Exclusive.eq_of_reaches (h : s.Exclusive i b) (hb : b = .cell c) (hv : s.slots[j]? = some v)
    (r : Reaches s.cells v c) : j = i := by
  -- By induction on the ownership: the last owner on the way to the cell is its only one.
  induction h generalizing c with
  | slot => cases hb
  | @cell b w c' owner root owns sole ih =>
    cases hb
    cases r with
    | owned h =>
      by_cases same : Base.slot j = b
      · subst same
        cases owner with
        | slot => rfl
      · have := owners_add_le_liveOwners (c := c') (b := .slot j) hv root trivial owner.counts same
        omega
    | @through _ e u r he h =>
      by_cases same : Base.cell e = b
      · exact ih same.symm r
      · have live : s.Live e := live_of_reaches (b := .slot j) hv trivial r
        have := owners_add_le_liveOwners (c := c') (b := .cell e) he root live owner.counts same
        omega

/-- No outside owner reaches a cell that a variable owns alone. -/
theorem Exclusive.not_reaches_of_held (h : s.Exclusive i b) (hb : b = .cell c) (held : d ∈ s.held) :
    ¬Reaches s.cells (.shared d) c := by
  induction h generalizing c with
  | slot => cases hb
  | @cell b w c' owner root owns sole ih =>
    cases hb
    intro r
    cases r with
    | owned h =>
      have := owners_add_held_le_liveOwners (c := c') root owner.counts
      have := List.count_pos_iff.mpr (Value.eq_of_owners_shared h ▸ held)
      omega
    | @through _ e u r he h =>
      by_cases same : Base.cell e = b
      · exact ih same.symm r
      · have live : s.Live e := live_of_reaches_held held r
        have := owners_add_le_liveOwners (c := c') (b := .cell e) he root live owner.counts same
        omega

/-! ### Changes of what a variable owns alone -/

/-- `t` is `s` with changes only in one variable and in what no other variable reaches. -/
structure ConfinedTo (i : Nat) (s t : Store) : Prop where
  length : t.slots.length = s.slots.length
  others : ∀ j, j ≠ i → t.slots[j]? = s.slots[j]?
  pointees : ∀ j v, j ≠ i → s.slots[j]? = some v → SamePointee v s.cells t.cells

theorem ConfinedTo.refl (i : Nat) (s : Store) : ConfinedTo i s s :=
  ⟨rfl, fun _ _ => rfl, fun _ _ _ _ => .refl _ _⟩

theorem ConfinedTo.trans {t' : Store} (h : ConfinedTo i s t) (h' : ConfinedTo i t t') : ConfinedTo i s t' where
  length := h'.length.trans h.length
  others j hj := (h'.others j hj).trans (h.others j hj)
  pointees j v hj hv := (h.pointees j v hj hv).trans (h'.pointees j v hj ((h.others j hj).trans hv))

/-- Putting a value where a variable owns it alone is confined to the variable. -/
theorem Exclusive.set_confined (h : s.Exclusive i p.base) (x : Value) : ConfinedTo i s (s.set p x) := by
  cases hr : s.root? p.base with
  | none =>
    simp only [set, hr]
    exact .refl i s
  | some w =>
    simp only [set, hr]
    generalize p.base = b at h hr
    generalize w.set p.path x = y
    cases b with
    | slot k =>
      cases h with
      | slot =>
        refine ⟨List.length_set, fun j hj => ?_, fun _ _ _ _ => .refl _ _⟩
        exact List.getElem?_set_ne (Ne.symm hj)
    | cell c =>
      refine ⟨rfl, fun _ _ => rfl, fun j v hj hv d u r hd => ?_⟩
      have hne : c ≠ d := by
        rintro rfl
        exact hj (h.eq_of_reaches rfl hv r)
      exact (List.getElem?_set_ne hne).trans hd

/-- `t` is `s` with changes only in variables and in what no outside owner reaches. -/
structure KeepsHeld (s t : Store) : Prop where
  held : t.held = s.held
  length : t.cells.length = s.cells.length
  pointees : ∀ c ∈ s.held, SamePointee (.shared c) s.cells t.cells

theorem KeepsHeld.refl (s : Store) : KeepsHeld s s := ⟨rfl, rfl, fun _ _ => .refl _ _⟩

theorem KeepsHeld.trans {t' : Store} (h : KeepsHeld s t) (h' : KeepsHeld t t') : KeepsHeld s t' where
  held := h'.held.trans h.held
  length := h'.length.trans h.length
  pointees c hc := (h.pointees c hc).trans (h'.pointees c (h.held ▸ hc))

/-- Putting a value where a variable owns it alone leaves what the outside owners point to. -/
theorem Exclusive.set_keepsHeld (h : s.Exclusive i p.base) (x : Value) : KeepsHeld s (s.set p x) := by
  cases hr : s.root? p.base with
  | none =>
    simp only [set, hr]
    exact .refl s
  | some w =>
    simp only [set, hr]
    generalize p.base = b at h hr
    generalize w.set p.path x = y
    cases b with
    | slot k => exact ⟨rfl, rfl, fun _ _ => .refl _ _⟩
    | cell c =>
      refine ⟨rfl, List.length_set, fun d hd e u r he => ?_⟩
      have hne : c ≠ e := by
        rintro rfl
        exact h.not_reaches_of_held rfl hd r
      exact (List.getElem?_set_ne hne).trans he

/-- What is confined to a variable that goes out of use again leaves the other variables as they were. -/
theorem ConfinedTo.pop (h : ConfinedTo s.slots.length (s.push v).1 t) (i : Nat) : ConfinedTo i s t.pop := by
  have hlen : t.slots.length = s.slots.length + 1 := by
    rw [h.length]
    simp only [push, List.length_append, List.length_singleton]
  have pushed : ∀ j, j < s.slots.length → (s.push v).1.slots[j]? = s.slots[j]? := fun j hj =>
    List.getElem?_append_left hj
  refine ⟨?_, fun j _ => ?_, fun j w _ hw => ?_⟩
  · simp only [Store.pop, List.length_dropLast, hlen, Nat.add_sub_cancel]
  · by_cases hj : j < s.slots.length
    · have hj' : j < t.slots.length - 1 := by omega
      simp only [Store.pop]
      rw [List.getElem?_dropLast, if_pos hj', h.others j (Nat.ne_of_lt hj), pushed j hj]
    · rw [List.getElem?_eq_none (Nat.le_of_not_lt hj), List.getElem?_eq_none]
      simp only [Store.pop, List.length_dropLast]
      omega
  · have hj : j < s.slots.length := (List.getElem?_eq_some_iff.mp hw).1
    exact h.pointees j w (Nat.ne_of_lt hj) ((pushed j hj).trans hw)

end Accessors.Store
