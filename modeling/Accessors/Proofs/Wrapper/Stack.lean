import Accessors.Proofs.Ty.Confined
import Accessors.Proofs.Ty.Found

/-! # Wrappers one around the other

An adapted accessor goes through its wrappers from the outside in, and each of them is tested unless it is never
empty. Where the payload is depends on the wrappers alone, and what is taken out of them is the payload that is read
there: to empty one wrapper leaves what the wrappers inside point to.

The wrappers are listed from the innermost one on, as they are put around the payload. -/

namespace Accessors

/-! ### One wrapper -/

namespace Wrapper
variable {w : Wrapper} {s : Store} {p q : Place} {v u : Value} {cells cells' : List Value} {c : Nat}

/-- An accessor of a family can go through the wrapper. -/
def lets (w : Wrapper) : Family → Bool
  | .write => w.total || w.lendsMut
  | .read | .own => w.total || w.lends

/-- The place of the payload for reading, and always a place if the wrapper is never empty. -/
def enter (w : Wrapper) (s : Store) (p : Place) : Option Place :=
  if w.total then some p.inside else w.read s p

def enterMut (w : Wrapper) (s : Store) (p : Place) : Option Place :=
  if w.total then some p.inside else w.write s p

/-- The payload as a value of its own. -/
def payload (w : Wrapper) (cells : List Value) (v : Value) : Option Value :=
  if w.total then some ((v.child? .inside).getD .moved) else w.found cells v

/-- The payload taken out of a wrapper that is in no variable. -/
def giveUp (w : Wrapper) (s : Store) (v : Value) : Store × Option Value :=
  if w.total then
    let z := inVariable s v fun s p => s.takeOut p.inside
    (z.1, some z.2)
  else Ty.takeLoose w s v

theorem sharing_of_total (h : w.total = true) : w.sharing = .none := by
  cases w <;> first | rfl | cases h

/-- A wrapper is entered for writing where it is entered for reading, a handle only by a sole owner. -/
theorem enterMut_eq_some_iff (h : w.lets .write = true) :
    w.enterMut s p = some q ↔ w.enter s p = some q ∧ ∀ c ∈ w.passed s p, s.owners c = 1 := by
  unfold enterMut enter
  by_cases total : w.total = true
  · simp [passed, sharing_of_total total, total]
  · have lends : w.lendsMut = true := (Bool.or_eq_true_iff.mp h).resolve_left total
    simp only [total, Bool.false_eq_true, ↓reduceIte, Store.owners_eq_liveOwners]
    exact write_eq_some_iff lends

theorem map_value_enter : (w.enter s p).map s.value = w.payload s.cells (s.value p) := by
  unfold enter payload
  split
  · exact congrArg some (s.value_step p .inside)
  · exact w.map_value_read s p

theorem reaches_of_payload (h : w.payload cells v = some u) (r : Store.Reaches cells u c) :
    Store.Reaches cells v c := by
  by_cases total : w.total = true
  · rw [payload, if_pos total] at h
    cases h
    cases hc : v.child? .inside with
    | none =>
      rw [hc] at r
      exact absurd r (Store.not_reaches_of_no_handles Value.owners_moved)
    | some x =>
      rw [hc] at r
      exact r.of_part fun _ => Value.owners_child_le hc
  · rw [payload, if_neg total] at h
    exact reaches_of_found h r

theorem payload_congr (same : Store.SamePointee v cells cells') (length : cells'.length = cells.length) :
    w.payload cells' v = w.payload cells v := by
  unfold payload
  split
  · rfl
  · exact found_congr same length

theorem length_cells_take (hp : ∃ i, p.base = .slot i) : (w.take s p).1.cells.length = s.cells.length := by
  obtain ⟨i, hp⟩ := hp
  exact (take_keepsHeld (i := i) (hp ▸ .slot)).length

theorem length_cells_giveUp : (w.giveUp s v).1.cells.length = s.cells.length := by
  unfold giveUp
  split
  · exact congrArg List.length (Store.cells_set_of_slot (s := (s.push v).1) (p := (s.push v).2.inside) rfl .moved)
  · exact length_cells_take (s := (s.push v).1) (p := (s.push v).2) ⟨_, rfl⟩

/-- What a wrapper gives up is its payload, and all that the payload points to stays. -/
theorem took_giveUp : s.Took (w.giveUp s v) (w.payload s.cells v) := by
  unfold giveUp payload
  split
  · have inside := (s.push v).1.value_step (s.push v).2 .inside
    rw [s.value_push] at inside
    refine ⟨congrArg some inside, fun u _ => ?_⟩
    rw [show (inVariable s v fun s p => s.takeOut p.inside).1.cells = s.cells from
      Store.cells_set_of_slot (s := (s.push v).1) (p := (s.push v).2.inside) rfl .moved]
    exact .refl _ _
  · exact Ty.took_loose w s v

end Wrapper

/-! ### All wrappers -/

namespace Wrappers

/-- The place of the payload, for reading. -/
def enter (s : Store) : List Wrapper → Place → Option Place
  | [], p => some p
  | w :: ws, p => (enter s ws p).bind (w.enter s)

def enterMut (s : Store) : List Wrapper → Place → Option Place
  | [], p => some p
  | w :: ws, p => (enterMut s ws p).bind (w.enterMut s)

/-- The cells of the handles on the way to the payload. -/
def handles (s : Store) : List Wrapper → Place → List Nat
  | [], _ => []
  | w :: ws, p => handles s ws p ++ (enter s ws p).elim [] (w.passed s)

/-- The payload as a value of its own. -/
def payload (cells : List Value) : List Wrapper → Value → Option Value
  | [], v => some v
  | w :: ws, v => (payload cells ws v).bind (w.payload cells)

/-- The payload taken out, one wrapper after the other. -/
def giveUp (s : Store) : List Wrapper → Value → Store × Option Value
  | [], v => (s, some v)
  | w :: ws, v => (giveUp s ws v).2.elim ((giveUp s ws v).1, none) (w.giveUp (giveUp s ws v).1)

variable {s : Store} {ws : List Wrapper} {p q : Place} {v : Value}

/-- The way for writing is the way for reading, if every handle on it is a sole owner. -/
theorem enterMut_eq_some_iff (lets : ∀ w ∈ ws, w.lets .write = true) :
    enterMut s ws p = some q ↔ enter s ws p = some q ∧ ∀ c ∈ handles s ws p, s.owners c = 1 := by
  induction ws generalizing q with
  | nil => simp [enterMut, enter, handles]
  | cons w ws ih =>
    have outer := fun m => ih (q := m) fun v hv => lets v (.tail _ hv)
    have step := fun m => Wrapper.enterMut_eq_some_iff (s := s) (p := m) (q := q) (lets w (.head _))
    simp only [enterMut, enter, handles, Option.bind_eq_some_iff, List.mem_append]
    constructor
    · rintro ⟨m, hm, hq⟩
      obtain ⟨hm, soles⟩ := (outer m).mp hm
      obtain ⟨hq, sole⟩ := (step m).mp hq
      refine ⟨⟨m, hm, hq⟩, fun c hc => ?_⟩
      rw [hm] at hc
      exact hc.elim (soles c) (sole c)
    · rintro ⟨⟨m, hm, hq⟩, soles⟩
      rw [hm] at soles
      exact ⟨m, (outer m).mpr ⟨hm, fun c hc => soles c (.inl hc)⟩, (step m).mpr ⟨hq, fun c hc => soles c (.inr hc)⟩⟩

theorem enterMut_eq_none_iff (lets : ∀ w ∈ ws, w.lets .write = true) :
    enterMut s ws p = none ↔ enter s ws p = none ∨ ∃ c ∈ handles s ws p, s.owners c ≠ 1 := by
  have way := fun q => enterMut_eq_some_iff (s := s) (p := p) (q := q) lets
  constructor
  · intro absent
    by_contra both
    obtain ⟨found, sole⟩ := not_or.mp both
    obtain ⟨q, hq⟩ := Option.ne_none_iff_exists'.mp found
    have led := (way q).mpr ⟨hq, fun c hc => by_contra fun hne => sole ⟨c, hc, hne⟩⟩
    cases absent.symm.trans led
  · intro h
    cases hq : enterMut s ws p with
    | none => rfl
    | some q =>
      obtain ⟨found, sole⟩ := (way q).mp hq
      rcases h with none | ⟨c, hc, hne⟩
      · cases none.symm.trans found
      · exact absurd (sole c hc) hne

theorem map_value_enter : (enter s ws p).map s.value = payload s.cells ws (s.value p) := by
  induction ws with
  | nil => rfl
  | cons w ws ih =>
    simp only [enter, payload, ← ih]
    cases enter s ws p with
    | none => rfl
    | some m => exact Wrapper.map_value_enter

theorem length_cells_giveUp : (giveUp s ws v).1.cells.length = s.cells.length := by
  induction ws with
  | nil => rfl
  | cons w ws ih =>
    simp only [giveUp]
    cases (giveUp s ws v).2 with
    | none => exact ih
    | some m => exact Wrapper.length_cells_giveUp.trans ih

/-- What is taken out of the wrappers is the payload that was there to begin with, and all that it points to stays:
    what an outer wrapper gives up leaves as it is what the wrappers inside point to. -/
theorem took : s.Took (giveUp s ws v) (payload s.cells ws v) := by
  induction ws with
  | nil => exact ⟨rfl, fun u _ => .refl u _⟩
  | cons w ws ih =>
    simp only [giveUp, payload, ← ih.found]
    have kept := ih.pointees
    rw [← ih.found] at kept
    cases hm : (giveUp s ws v).2 with
    | none =>
      refine ⟨rfl, fun u hu => ?_⟩
      cases hu
    | some m =>
      have inner := Wrapper.took_giveUp (w := w) (s := (giveUp s ws v).1) (v := m)
      rw [Wrapper.payload_congr (kept m hm) length_cells_giveUp] at inner
      refine ⟨inner.found, fun u hu => ?_⟩
      have outer : Store.SamePointee u s.cells (giveUp s ws v).1.cells :=
        fun c x r => kept m hm c x (Wrapper.reaches_of_payload hu r)
      exact outer.trans (inner.pointees u hu)

end Wrappers
end Accessors
