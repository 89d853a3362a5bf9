import Accessors.Proofs.Store.Exclusive
import Accessors.Ty.Unwrap

/-! # Steps stay with their owner

A step for writing leads from what a variable owns alone to what it owns alone: into the value, or through a
handle whose pointee has no other owner. A step that takes a value away changes nothing else either, and nothing that
an outside owner points to. -/

namespace Accessors

namespace Store
variable {s t : Store} {p q : Place} {i k : Nat}

theorem base_of_inside? (h : s.inside? p = some q) : q.base = p.base := by
  obtain ⟨rfl, -⟩ := inside?_eq_some.mp h
  rfl

theorem base_of_item? (h : s.item? p k = some q) : q.base = p.base := by
  obtain ⟨rfl, -⟩ := item?_eq_some.mp h
  rfl

/-- `t` is `s`, or `s` with one place emptied that a variable owns alone. -/
inductive Empties (i : Nat) (s : Store) : Store → Prop
  | nothing : Empties i s s
  | place {q : Place} (owner : s.Exclusive i q.base) : Empties i s (s.set q .moved)

theorem Empties.confined (h : s.Empties i t) : ConfinedTo i s t := by
  cases h with
  | nothing => exact .refl i s
  | place owner => exact owner.set_confined .moved

theorem Empties.keepsHeld (h : s.Empties i t) : KeepsHeld s t := by
  cases h with
  | nothing => exact .refl s
  | place owner => exact owner.set_keepsHeld .moved

end Store

open Store

namespace Wrapper
variable {w : Wrapper} {s : Store} {p q : Place} {i : Nat}

/-- A step for writing stays with what a variable owns alone. -/
theorem write_exclusive (h : s.Exclusive i p.base) (hq : w.write s p = some q) : s.Exclusive i q.base := by
  cases w <;> simp only [write, reduceCtorEq] at hq <;>
    first
    | exact base_of_inside? hq ▸ h
    | exact base_of_item? hq ▸ h
    | (obtain ⟨c, hc, hq⟩ := Option.bind_eq_some_iff.mp hq
       split at hq
       · rename_i sole
         cases hq
         exact h.handle hc sole
       · cases hq)

theorem takeFrom_empties {o : Option Place} (h : ∀ q, o = some q → s.Exclusive i q.base) :
    s.Empties i (takeFrom s o).1 := by
  cases o with
  | none => exact .nothing
  | some q => exact .place (h q rfl)

theorem take_handle_empties (h : s.Exclusive i p.base) : s.Empties i (shared.take s p).1 := by
  simp only [take]
  cases hc : s.handle? p with
  | none => exact .nothing
  | some c =>
    simp only
    split
    · rename_i sole
      refine takeFrom_empties fun q hq => ?_
      cases hq
      exact h.handle hc sole
    · exact .nothing

/-- A step that takes the value inside away empties at most one place, which the same variable owns alone. -/
theorem take_empties (h : s.Exclusive i p.base) : s.Empties i (w.take s p).1 := by
  cases w <;>
    first
    | exact takeFrom_empties fun q hq => base_of_inside? hq ▸ h
    | exact takeFrom_empties fun q hq => base_of_item? hq ▸ h
    | exact take_handle_empties h
    | exact .nothing

/-- A step that takes the value inside away changes only what a variable owns alone. -/
theorem take_confined (h : s.Exclusive i p.base) : ConfinedTo i s (w.take s p).1 := (take_empties h).confined

theorem take_keepsHeld (h : s.Exclusive i p.base) : KeepsHeld s (w.take s p).1 := (take_empties h).keepsHeld

end Wrapper

namespace Ty
variable {t : Ty} {s : Store} {p q : Place} {i : Nat}

/-- The step for writing in one go stays with what a variable owns alone. -/
theorem write_exclusive (h : s.Exclusive i p.base) (hq : t.write s p = some q) : s.Exclusive i q.base := by
  cases t with
  | plain n =>
    cases hq
    exact h
  | wrap w t =>
    simp only [write] at hq
    split at hq
    · split at hq
      · exact Wrapper.write_exclusive h hq
      · obtain ⟨m, hm, hq⟩ := Option.bind_eq_some_iff.mp hq
        exact Wrapper.write_exclusive (Wrapper.write_exclusive h hm) hq
    · exact Wrapper.write_exclusive h hq

theorem takeLoose_confined (w : Wrapper) (s : Store) (v : Value) (i : Nat) :
    ConfinedTo i s (takeLoose w s v).1 := by
  have inside : ConfinedTo s.slots.length (s.push v).1 (w.take (s.push v).1 (s.push v).2).1 :=
    Wrapper.take_confined .slot
  exact inside.pop i

theorem takeLoose_keepsHeld (w : Wrapper) (s : Store) (v : Value) : KeepsHeld s (takeLoose w s v).1 := by
  have inside : KeepsHeld (s.push v).1 (w.take (s.push v).1 (s.push v).2).1 :=
    Wrapper.take_keepsHeld (i := s.slots.length) .slot
  exact ⟨inside.held, inside.length, inside.pointees⟩

/-- Taking the value inside away in one go is a step out of the place, and after it maybe one out of what that
    step gave. -/
theorem take_cases (t : Ty) (s : Store) (p : Place) : (t.take s p).1 = s.set p .moved ∨
    ∃ w : Wrapper, (t.take s p).1 = (w.take s p).1 ∨ ∃ v m, (t.take s p).1 = (takeLoose v (w.take s p).1 m).1 := by
  cases t with
  | plain n => exact .inl rfl
  | wrap w t =>
    refine .inr ⟨w, ?_⟩
    simp only [take]
    split
    · rename_i v hv
      split
      · rename_i m heq
        exact .inr ⟨v, m, by rw [heq]⟩
      · rename_i heq
        exact .inl (by rw [heq])
    · exact .inl rfl

/-- Taking the value inside away in one go changes only what a variable owns alone. -/
theorem take_confined (h : s.Exclusive i p.base) : ConfinedTo i s (t.take s p).1 := by
  rcases t.take_cases s p with plain | ⟨w, outer | ⟨v, m, inner⟩⟩
  · exact plain ▸ h.set_confined .moved
  · exact outer ▸ Wrapper.take_confined h
  · exact inner ▸ (Wrapper.take_confined h).trans (takeLoose_confined v _ m i)

/-- Taking the value inside away in one go leaves what the outside owners point to. -/
theorem take_keepsHeld (h : s.Exclusive i p.base) : KeepsHeld s (t.take s p).1 := by
  rcases t.take_cases s p with plain | ⟨w, outer | ⟨v, m, inner⟩⟩
  · exact plain ▸ h.set_keepsHeld .moved
  · exact outer ▸ Wrapper.take_keepsHeld h
  · exact inner ▸ (Wrapper.take_keepsHeld h).trans (takeLoose_keepsHeld v _ m)

end Ty
end Accessors
