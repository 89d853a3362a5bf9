import Accessors.Proofs.Store.Exclusive

/-! # Stores that agree on their cells

Who owns a cell is counted in the variables, in the cells and outside. It does not matter which variable a handle is
in: stores whose cells are the same and whose variables own each cell as often count the same owners. What a sole
owner gives up, its old contents do not reach. -/

namespace Accessors.Store
variable {s t : Store} {p q : Place} {c i : Nat} {u v x : Value}

/-- Two stores have the same cells and outside owners, and their variables own each cell equally often. -/
structure Agrees (s t : Store) : Prop where
  cells : s.cells = t.cells
  held : s.held = t.held
  slots : ∀ c, Value.ownersIn c s.slots = Value.ownersIn c t.slots

/-- Stores that agree count the same owners. -/
theorem Agrees.owners_eq (h : s.Agrees t) (c : Nat) : s.owners c = t.owners c := by
  have live : s.Live = t.Live := funext fun d => by simp only [Live, Supported, h.cells, h.held, h.slots]
  have cells : s.liveCells = t.liveCells := by
    unfold liveCells
    rw [live, h.cells]
  rw [owners_eq_liveOwners, owners_eq_liveOwners, liveOwners, liveOwners, cells, h.held, h.slots]

theorem ownersIn_push (s : Store) (x : Value) (c : Nat) :
    Value.ownersIn c (s.push x).1.slots = Value.ownersIn c s.slots + x.owners c := by
  rw [push, Value.ownersIn_append, Value.ownersIn_singleton]

/-! ### A further variable -/

theorem Live.push (h : s.Live c) (x : Value) : (s.push x).1.Live c := by
  obtain ⟨P, supported, hc⟩ := h
  refine ⟨P, fun d hd => ?_, hc⟩
  rw [ownersIn_push]
  rcases supported d hd with slot | rest
  · exact .inl (by omega)
  · exact .inr rest

/-- What a further variable keeps alive it reaches. -/
theorem Live.of_push (h : (s.push x).1.Live c) (apart : ¬Reaches s.cells x c) : s.Live c := by
  refine ⟨fun d => (s.push x).1.Live d ∧ ¬Reaches s.cells x d, fun d ⟨live, apart⟩ => ?_, h, apart⟩
  rcases (s.push x).1.supported_live d live with slot | out | ⟨e, u, he, hu, owns⟩
  · have none : x.owners d = 0 := Nat.eq_zero_of_not_pos fun owns => apart (.owned owns)
    rw [ownersIn_push, none] at slot
    exact .inl slot
  · exact .inr (.inl out)
  · exact .inr (.inr ⟨e, u, ⟨he, fun r => apart (.through r hu owns)⟩, hu, owns⟩)

/-- A further variable adds owners only to what it reaches. -/
theorem owners_push_of_not_reaches (apart : ¬Reaches s.cells x c) : (s.push x).1.owners c = s.owners c := by
  have slots : x.owners c = 0 := Nat.eq_zero_of_not_pos fun owns => apart (.owned owns)
  have cells : Value.ownersIn c (s.push x).1.liveCells = Value.ownersIn c s.liveCells := by
    refine Value.ownersIn_mapIdx_congr fun d u hu => ?_
    by_cases live : s.Live d
    · simp only [live, live.push x, ↓reduceIte]
    · by_cases live' : (s.push x).1.Live d
      · have reached : Reaches s.cells x d := by_contra fun apart => live (live'.of_push apart)
        have none : u.owners c = 0 := Nat.eq_zero_of_not_pos fun owns => apart (.through reached hu owns)
        simp only [live, live', ↓reduceIte, none, Value.owners_moved]
      · simp only [live, live', ↓reduceIte]
  rw [owners_eq_liveOwners, owners_eq_liveOwners, liveOwners, liveOwners, cells, ownersIn_push, slots, Nat.add_zero]
  rfl

/-! ### Putting a value -/

theorem eq_of_fields (slots : s.slots = t.slots) (cells : s.cells = t.cells) (held : s.held = t.held) : s = t := by
  obtain ⟨_, _, _⟩ := s
  obtain ⟨_, _, _⟩ := t
  cases slots
  cases cells
  cases held
  rfl

theorem set_of_get?_eq_none (h : s.get? p = none) (x : Value) : s.set p x = s := by
  simp only [set]
  cases hr : s.root? p.base with
  | none => rfl
  | some r =>
    have hget : r.get? p.path = none := by rwa [get?, hr] at h
    simp only [Value.set_of_get?_eq_none hget, setRoot_self hr]

theorem held_set (s : Store) (p : Place) (x : Value) : (s.set p x).held = s.held := by
  simp only [set]
  cases s.root? p.base with
  | none => rfl
  | some w => cases p.base <;> rfl

theorem cells_set_of_slot (hp : p.base = .slot i) (x : Value) : (s.set p x).cells = s.cells := by
  simp only [set, hp]
  cases s.root? (.slot i) <;> rfl

theorem set_push (hp : p.base = .slot s.slots.length) (x : Value) :
    (s.push v).1.set p x = (s.push (v.set p.path x)).1 := by
  simp only [set, hp, push, root?, setRoot, List.getElem?_concat_length]
  rw [List.set_append_right _ _ (Nat.le_refl _), Nat.sub_self, List.set_cons_zero]

theorem cells_set_cell (s : Store) (c : Nat) (x : Value) : (s.set (.cell c) x).cells = s.cells.set c x := by
  simp only [set, Place.cell, root?]
  cases h : s.cells[c]? with
  | none => rw [List.set_eq_of_length_le (List.getElem?_eq_none_iff.mp h)]
  | some w => rfl

/-- Putting a value in a variable exchanges its owners for those of the value there before. -/
theorem ownersIn_slots_set (hp : p.base = .slot i) (hu : s.get? p = some u) (x : Value) (c : Nat) :
    Value.ownersIn c (s.set p x).slots + u.owners c = Value.ownersIn c s.slots + x.owners c := by
  obtain ⟨r, hr, hget⟩ := exists_root?_of_get? hu
  simp only [set, hr]
  rw [hp] at hr ⊢
  have slot := Value.ownersIn_set_add (c := c) (w := r.set p.path x) hr
  have inside := Value.owners_set_add (c := c) (w := x) hget
  simp only [setRoot]
  omega

/-- A value that is taken out of a variable takes its owners with it. -/
theorem ownersIn_slots_takeOut (hp : p.base = .slot i) (c : Nat) :
    Value.ownersIn c (s.takeOut p).1.slots + (s.takeOut p).2.owners c = Value.ownersIn c s.slots := by
  rw [takeOut, value]
  cases hu : s.get? p with
  | none => rw [set_of_get?_eq_none hu, Option.getD_none, Value.owners_moved, Nat.add_zero]
  | some u =>
    have := ownersIn_slots_set hp hu .moved c
    rwa [Value.owners_moved] at this

/-- It makes no difference to the owners of a cell that a value is moved into a variable of its own. -/
theorem agrees_takeOut (hp : p.base = .slot i) : s.Agrees ((s.takeOut p).1.push (s.takeOut p).2).1 where
  cells := (cells_set_of_slot hp _).symm
  held := (s.held_set p _).symm
  slots c := by rw [ownersIn_push, ownersIn_slots_takeOut hp]

theorem slots_pop_of_confined (h : ConfinedTo s.slots.length (s.push v).1 t) : t.pop.slots = s.slots :=
  List.ext_getElem? fun j => (h.pop (j + 1)).others j (Nat.ne_of_lt (Nat.lt_succ_self j))

/-! ### What a value reaches -/

/-- What a value reaches is the same in two stores: the cells hold the same and, if owners are counted, have as many
    of them. -/
structure SameReach (counted : Bool) (v : Value) (s t : Store) : Prop where
  cells : ∀ c, Reaches s.cells v c → s.cells[c]? = t.cells[c]?
  owners : counted = true → ∀ c, Reaches s.cells v c → s.owners c = t.owners c

/-! ### What a sole owner gives up -/

theorem Reaches.of_part {cells : List Value} (part : ∀ d, u.owners d ≤ v.owners d) (r : Reaches cells u c) :
    Reaches cells v c := by
  induction r with
  | owned h => exact .owned (Nat.lt_of_lt_of_le h (part _))
  | through _ hd h ih => exact .through ih hd h

theorem Reaches.through_cell {cells : List Value} {d : Nat} (r : Reaches cells v d) (hd : cells[d]? = some u)
    (r' : Reaches cells u c) : Reaches cells v c := by
  induction r' with
  | owned h => exact .through r hd h
  | through _ he h ih => exact .through ih he h

theorem not_reaches_of_no_handles {cells : List Value} (h : ∀ c, v.owners c = 0) : ¬Reaches cells v c := by
  intro r
  induction r with
  | owned hc =>
    rw [h] at hc
    exact Nat.lt_irrefl 0 hc
  | through _ _ _ ih => exact ih

theorem SamePointee.of_part {cells cells' : List Value} (part : ∀ d, u.owners d ≤ v.owners d)
    (h : SamePointee v cells cells') : SamePointee u cells cells' :=
  fun c x r hc => h c x (r.of_part part) hc

/-- The pointee of a sole owner in a variable does not lead back to its own cell. -/
theorem not_reaches_of_sole (hp : p.base = .slot i) (hc : s.handle? p = some c) (sole : s.owners c = 1)
    (hv : s.cells[c]? = some v) : ¬Reaches s.cells v c := by
  intro r
  obtain ⟨w, hw, owns⟩ := owned_of_handle? hc
  rw [hp] at hw
  have live : s.Live c := live_iff_owned.mpr (by omega)
  rw [owners_eq_liveOwners] at sole
  -- The last owner on the way back would be a second one, beside the handle in the variable.
  have second : ∀ {d y}, s.Live d → s.cells[d]? = some y → 0 < y.owners c → False := fun {d y} hd hy h => by
    have hy : s.root? (.cell d) = some y := hy
    have := owners_add_le_liveOwners (c := c) (b := .slot i) hw hy trivial hd Base.noConfusion
    omega
  cases r with
  | owned h => exact second live hv h
  | through r hd h => exact second (live_of_reaches (b := .cell c) hv live r) hd h

/-- What the pointee of a sole owner points to stays, when it is taken out of its cell. -/
theorem samePointee_set_of_sole (hp : p.base = .slot i) (hc : s.handle? p = some c) (sole : s.owners c = 1)
    (hv : s.cells[c]? = some v) (x : Value) : SamePointee v s.cells (s.cells.set c x) := by
  intro d y r hd
  have hne : c ≠ d := by
    rintro rfl
    exact not_reaches_of_sole hp hc sole hv r
  exact (List.getElem?_set_ne hne).trans hd

end Accessors.Store
