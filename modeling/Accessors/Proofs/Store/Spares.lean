import Accessors.Proofs.Store.Agreement
import Accessors.Proofs.Store.Frame

/-! # Apart from some roots

Roots in variables may share what they point to with each other and with anybody else. What is done to some of them
spares the others if it leaves every other part of the variables as it is, all that it points to, and all that the
outside owners point to. -/

namespace Accessors

namespace Place
variable {p q r : Place}

/-- Neither place is at the other one or further in. -/
def Apart (p q : Place) : Prop := ¬p.Covers q ∧ ¬q.Covers p

instance (p q : Place) : Decidable (p.Covers q) :=
  inferInstanceAs (Decidable (q.base = p.base ∧ p.path <+: q.path))

instance : DecidableRel Apart := fun p q => inferInstanceAs (Decidable (¬p.Covers q ∧ ¬q.Covers p))

theorem Apart.symm (h : p.Apart q) : q.Apart p := And.symm h

theorem Apart.of_base (h : p.base ≠ q.base) : p.Apart q := ⟨fun hc => h hc.1.symm, fun hc => h hc.1⟩

theorem Apart.of_covers (h : p.Apart r) (hq : p.Covers q) : q.Apart r := by
  refine ⟨fun hr => h.1 (hq.trans hr), fun hr => ?_⟩
  have base : r.base = p.base := hr.1.symm.trans hq.1
  rcases List.prefix_or_prefix_of_prefix hq.2 hr.2 with below | above
  · exact h.1 ⟨base, below⟩
  · exact h.2 ⟨base.symm, above⟩

end Place

namespace Store
variable {s t u : Store} {p q : Place} {ps qs rs : List Place} {i j : Nat} {w : Value}

/-- A place is in one of the variables. -/
def InSlots (s : Store) (p : Place) : Prop := ∃ i < s.slots.length, p.base = .slot i

/-- Some roots in variables, each of them apart from the others. -/
structure Separate (s : Store) (ps : List Place) : Prop where
  inSlots : ∀ p ∈ ps, s.InSlots p
  apart : ps.Pairwise Place.Apart

/-- At a place two stores have the same value, and all that it points to is the same. -/
structure SameAt (s t : Store) (q : Place) : Prop where
  get? : t.get? q = s.get? q
  pointees : SamePointee (s.value q) s.cells t.cells

theorem SameAt.value_eq (h : s.SameAt t q) : t.value q = s.value q := by
  rw [value, value, h.get?]

theorem SameAt.trans (h : s.SameAt t q) (h' : t.SameAt u q) : s.SameAt u q where
  get? := h'.get?.trans h.get?
  pointees := h.pointees.trans (h.value_eq ▸ h'.pointees)

theorem sameAt_set (hp : p.base = .slot i) (h : p.Apart q) (x : Value) : s.SameAt (s.set p x) q where
  get? := get?_set_of_apart h.1 h.2
  pointees := by
    rw [cells_set_of_slot hp]
    exact .refl _ _

theorem sameAt_push (h : s.InSlots q) (x : Value) : s.SameAt (s.push x).1 q where
  get? := by
    obtain ⟨i, hi, hq⟩ := h
    refine get?_push_of_base fun he => ?_
    cases hq.symm.trans he
    exact Nat.lt_irrefl _ hi
  pointees := .refl _ _

/-- A value owns no more than the variable or the cell it is in. -/
theorem owners_value_le (h : s.root? q.base = some w) (c : Nat) : (s.value q).owners c ≤ w.owners c := by
  rw [value, get?, h, Option.bind_some]
  cases hv : w.get? q.path with
  | none => simp
  | some v => exact Value.owners_get?_le hv

theorem ConfinedTo.sameAt (h : s.ConfinedTo i t) (hq : q.base = .slot j) (hj : j ≠ i) : s.SameAt t q where
  get? := by simp only [Store.get?, hq, root?, h.others j hj]
  pointees := by
    cases hv : s.slots[j]? with
    | none =>
      have moved : s.value q = .moved := by simp [value, Store.get?, hq, root?, hv]
      rw [moved]
      exact fun c _ r => absurd r (not_reaches_of_no_handles Value.owners_moved)
    | some w => exact (h.pointees j w hj hv).of_part (owners_value_le (hq ▸ hv))

/-- `t` is `s` after some roots were used: all else in the variables is as before with what it points to, and so is
    what the outside owners point to. -/
structure Spares (s : Store) (ps : List Place) (t : Store) : Prop where
  length : s.slots.length ≤ t.slots.length
  others : ∀ q, s.InSlots q → (∀ p ∈ ps, p.Apart q) → s.SameAt t q
  held : s.KeepsHeld t

theorem Spares.refl (s : Store) (ps : List Place) : s.Spares ps s :=
  ⟨Nat.le_refl _, fun _ _ _ => ⟨rfl, .refl _ _⟩, .refl s⟩

theorem InSlots.mono (h : s.InSlots p) (length : s.slots.length ≤ t.slots.length) : t.InSlots p := by
  obtain ⟨i, hi, hp⟩ := h
  exact ⟨i, Nat.lt_of_lt_of_le hi length, hp⟩

theorem Spares.trans (h : s.Spares ps t) (h' : t.Spares qs u) (hps : ps ⊆ rs) (hqs : qs ⊆ rs) : s.Spares rs u where
  length := Nat.le_trans h.length h'.length
  others q hq apart := (h.others q hq fun p hp => apart p (hps hp)).trans
    (h'.others q (hq.mono h.length) fun p hp => apart p (hqs hp))
  held := h.held.trans h'.held

theorem Spares.push (h : s.Spares ps t) (x : Value) : s.Spares ps (t.push x).1 where
  length := by
    have := h.length
    simp only [Store.push, List.length_append, List.length_singleton]
    omega
  others q hq apart := (h.others q hq apart).trans (sameAt_push (hq.mono h.length) x)
  held := h.held.trans ⟨rfl, rfl, fun _ _ => .refl _ _⟩

theorem Separate.tail (h : s.Separate (p :: ps)) (length : s.slots.length ≤ t.slots.length) : t.Separate ps where
  inSlots q hq := (h.inSlots q (.tail _ hq)).mono length
  apart := (List.pairwise_cons.mp h.apart).2

end Store

end Accessors
