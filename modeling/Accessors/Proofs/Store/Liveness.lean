import Accessors.Proofs.Value.Owners
import Accessors.Store
import Mathlib.Logic.Function.Iterate

/-! # Live cells

A cell is live if it belongs to a set of cells each of which has an owner: in a variable, outside, or in a
cell of the set. So cells that own each other stay alive together. The owners of a cell are counted by
letting cells without owners give up what they hold until nothing changes any more; the cells that keep
what they hold are the live ones, and the number is that of the handles in variables, outside, and in
live cells. -/

namespace Accessors.Store
variable {s t : Store} {c d : Nat} {u v : Value} {b b' : Base}

/-! ### Rounds of release -/

theorem getElem?_release (s : Store) (c : Nat) :
    s.release.cells[c]? = (s.cells[c]?).map fun v => if s.handles c = 0 then .moved else v := by
  simp only [release, List.getElem?_mapIdx]

theorem handles_release_le (s : Store) (c : Nat) : s.release.handles c ≤ s.handles c := by
  have : Value.ownersIn c s.release.cells ≤ Value.ownersIn c s.cells := by
    refine Value.ownersIn_mapIdx_le s.cells _ fun i v => ?_
    split
    · rw [Value.owners_moved]
      exact Nat.zero_le _
    · exact Nat.le_refl _
  simp only [handles]
  exact Nat.add_le_add_right (Nat.add_le_add_left this _) _

theorem settle_eq_iterate (s : Store) : s.settle = release^[s.cells.length] s := by
  rw [settle, List.foldl_const, List.length_range]

theorem settle_induction {P : Store → Prop} (start : P s) (round : ∀ t, P t → P t.release) : P s.settle := by
  rw [settle_eq_iterate]
  generalize s.cells.length = n
  induction n with
  | zero => exact start
  | succ n ih =>
    rw [Function.iterate_succ_apply']
    exact round _ ih

/-- The number of cells that still hold something. -/
def filled (s : Store) : Nat := s.cells.countP (· != .moved)

theorem mapIdx_eq_or_countP_lt (vs : List Value) (f : Nat → Value → Value)
    (h : ∀ i v, f i v = v ∨ f i v = .moved) :
    vs.mapIdx f = vs ∨ (vs.mapIdx f).countP (· != .moved) < vs.countP (· != .moved) := by
  induction vs generalizing f with
  | nil => exact .inl rfl
  | cons v vs ih =>
    rw [List.mapIdx_cons, List.countP_cons, List.countP_cons]
    have rest := ih (fun i => f (i + 1)) fun i => h (i + 1)
    have rest_le : (vs.mapIdx fun i => f (i + 1)).countP (· != .moved) ≤ vs.countP (· != .moved) := by
      rcases rest with same | fewer
      · exact Nat.le_of_eq (congrArg _ same)
      · exact Nat.le_of_lt fewer
    by_cases hv : f 0 v = v
    · rcases rest with same | fewer
      · exact .inl (by rw [hv, same])
      · rw [hv]
        exact .inr (Nat.add_lt_add_right fewer _)
    · have hmoved := (h 0 v).resolve_left hv
      have hne : v ≠ .moved := fun h => hv (by rw [hmoved, h])
      refine .inr ?_
      simp only [hmoved, bne_self_eq_false, Bool.false_eq_true, ↓reduceIte, bne_iff_ne.mpr hne]
      omega

theorem release_eq_or_filled_lt (s : Store) : s.release = s ∨ s.release.filled < s.filled := by
  have := mapIdx_eq_or_countP_lt s.cells (fun c v => if s.handles c = 0 then .moved else v) fun i v => by
    by_cases h : s.handles i = 0
    · exact .inr (if_pos h)
    · exact .inl (if_neg h)
  rcases this with same | fewer
  · exact .inl (by rw [release, same])
  · exact .inr fewer

/-- After as many rounds as there are cells nothing is left to give up. -/
theorem release_settle (s : Store) : s.settle.release = s.settle := by
  have key : ∀ n, (release^[n] s).release ≠ release^[n] s → (release^[n] s).filled + n ≤ s.filled := by
    intro n
    induction n with
    | zero => exact fun _ => Nat.le_refl _
    | succ n ih =>
      intro hne
      rw [Function.iterate_succ_apply'] at hne ⊢
      have hne' : (release^[n] s).release ≠ release^[n] s := fun h => hne (by rw [h, h])
      have hle := ih hne'
      have hlt := (release_eq_or_filled_lt (release^[n] s)).resolve_left hne'
      omega
  by_contra hne
  rw [settle_eq_iterate] at hne
  have hle := key _ hne
  have hlt := (release_eq_or_filled_lt _).resolve_left hne
  have hmax : s.filled ≤ s.cells.length := List.countP_le_length
  omega

/-! ### What settles -/

/-- What a store with some cells masked keeps of the whole one: the variables, the outside owners, and
    every cell that still has an owner. -/
structure Masks (t s : Store) : Prop where
  slots : t.slots = s.slots
  held : t.held = s.held
  cells : ∀ c, t.cells[c]? = s.cells[c]? ∨ t.handles c = 0 ∧ t.cells[c]? = (s.cells[c]?).map fun _ => .moved

theorem settle_masks (s : Store) : s.settle.Masks s := by
  refine settle_induction (P := (·.Masks s)) ⟨rfl, rfl, fun _ => .inl rfl⟩ fun t ih => ⟨ih.slots, ih.held, ?_⟩
  intro c
  have hle := handles_release_le t c
  rw [getElem?_release]
  by_cases hz : t.handles c = 0
  · refine .inr ⟨by omega, ?_⟩
    simp only [hz, ↓reduceIte]
    rcases ih.cells c with same | ⟨-, moved⟩
    · rw [same]
    · rw [moved, Option.map_map]
      rfl
  · rcases ih.cells c with same | ⟨zero, -⟩
    · simp only [hz, ↓reduceIte, Option.map_id', same]
      exact .inl trivial
    · exact absurd zero hz

theorem owners_eq (s : Store) (c : Nat) :
    s.owners c = Value.ownersIn c s.slots + Value.ownersIn c s.settle.cells + s.held.count c := by
  rw [owners, handles, (settle_masks s).slots, (settle_masks s).held]

theorem getElem?_settle_of_owned (h : 0 < s.owners c) : s.settle.cells[c]? = s.cells[c]? := by
  rcases (settle_masks s).cells c with same | ⟨zero, -⟩
  · exact same
  · rw [owners, zero] at h
    exact absurd h (Nat.lt_irrefl 0)

theorem getElem?_settle_of_not_owned (h : s.owners c = 0) :
    s.settle.cells[c]? = (s.cells[c]?).map fun _ => .moved := by
  rcases (settle_masks s).cells c with same | ⟨-, moved⟩
  · have settled := getElem?_release s.settle c
    rw [release_settle] at settled
    simp only [show s.settle.handles c = 0 from h, ↓reduceIte] at settled
    rw [settled, same]
  · exact moved

/-! ### Liveness -/

/-- Every cell of a set has an owner: in a variable, outside, or in a cell of the set. -/
def Supported (s : Store) (P : Nat → Prop) : Prop :=
  ∀ c, P c → 0 < Value.ownersIn c s.slots ∨ c ∈ s.held ∨
    ∃ (d : Nat) (v : Value), P d ∧ s.cells[d]? = some v ∧ 0 < v.owners c

/-- A cell is live if it is in a set of cells that keep each other. -/
def Live (s : Store) (c : Nat) : Prop := ∃ P, s.Supported P ∧ P c

/-- What the live cells hold; the other cells hold nothing that counts. -/
noncomputable def liveCells (s : Store) : List Value :=
  open Classical in s.cells.mapIdx fun c v => if s.Live c then v else .moved

/-- The number of live owners of a cell: the handles in variables, in live cells, and outside. -/
noncomputable def liveOwners (s : Store) (c : Nat) : Nat :=
  Value.ownersIn c s.slots + Value.ownersIn c s.liveCells + s.held.count c

/-- A set of cells that keep each other gives up nothing. -/
theorem Supported.owned {P : Nat → Prop} (h : s.Supported P) (hc : P c) : 0 < s.owners c := by
  have handled : ∀ t : Store, t.slots = s.slots ∧ t.held = s.held ∧ (∀ d, P d → t.cells[d]? = s.cells[d]?) →
      ∀ d, P d → 0 < t.handles d := by
    rintro t ⟨hslots, hheld, hcells⟩ d hd
    rw [handles, hslots, hheld]
    rcases h d hd with slot | out | ⟨e, v, he, hv, hpos⟩
    · omega
    · have := List.count_pos_iff.mpr out
      omega
    · have : 0 < Value.ownersIn d t.cells := Value.ownersIn_pos_iff.mpr ⟨e, v, (hcells e he).trans hv, hpos⟩
      omega
  refine handled s.settle ?_ c hc
  refine settle_induction (P := fun t => t.slots = s.slots ∧ t.held = s.held ∧
    ∀ d, P d → t.cells[d]? = s.cells[d]?) ⟨rfl, rfl, fun _ _ => rfl⟩ fun t ih => ⟨ih.1, ih.2.1, fun d hd => ?_⟩
  have := handled t ih d hd
  rw [getElem?_release, ih.2.2 d hd]
  simp only [show t.handles d ≠ 0 by omega, ↓reduceIte, Option.map_id']

theorem supported_owned (s : Store) : s.Supported fun c => 0 < s.owners c := by
  intro c hc
  rw [owners_eq] at hc
  rcases Nat.eq_zero_or_pos (Value.ownersIn c s.slots) with hslots | hslots
  · rcases Nat.eq_zero_or_pos (s.held.count c) with hheld | hheld
    · obtain ⟨d, v, hv, hpos⟩ := Value.ownersIn_pos_iff.mp (show 0 < Value.ownersIn c s.settle.cells by omega)
      rcases Nat.eq_zero_or_pos (s.owners d) with hd | hd
      · -- A cell that gave up what it held owns nothing.
        rw [getElem?_settle_of_not_owned hd, Option.map_eq_some_iff] at hv
        obtain ⟨-, -, rfl⟩ := hv
        rw [Value.owners_moved] at hpos
        exact absurd hpos (Nat.lt_irrefl 0)
      · rw [getElem?_settle_of_owned hd] at hv
        exact .inr (.inr ⟨d, v, hd, hv, hpos⟩)
    · exact .inr (.inl (List.count_pos_iff.mp hheld))
  · exact .inl hslots

/-- A cell is live exactly if it has an owner. -/
theorem live_iff_owned : s.Live c ↔ 0 < s.owners c :=
  ⟨fun ⟨_, hP, hc⟩ => hP.owned hc, fun h => ⟨_, s.supported_owned, h⟩⟩

theorem supported_live (s : Store) : s.Supported s.Live := by
  have same : s.Live = fun c => 0 < s.owners c := funext fun c => propext live_iff_owned
  rw [same]
  exact s.supported_owned

theorem settle_cells (s : Store) : s.settle.cells = s.liveCells := by
  refine List.ext_getElem? fun c => ?_
  simp only [liveCells, List.getElem?_mapIdx]
  by_cases h : s.Live c
  · rw [getElem?_settle_of_owned (live_iff_owned.mp h)]
    simp only [h, ↓reduceIte, Option.map_id']
  · rw [getElem?_settle_of_not_owned (Nat.eq_zero_of_not_pos fun hpos => h (live_iff_owned.mpr hpos))]
    simp only [h, ↓reduceIte]

/-- The owners that are counted are the live ones. -/
theorem owners_eq_liveOwners (s : Store) (c : Nat) : s.owners c = s.liveOwners c := by
  rw [owners_eq, settle_cells, liveOwners]

end Accessors.Store
