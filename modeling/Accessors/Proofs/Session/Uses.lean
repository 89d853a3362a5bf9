import Accessors.Proofs.Ty.Confined
import Accessors.Proofs.Wrapper.Found
import Accessors.Session
import Accessors.UnionCase

/-! # What accessors find

What each accessor of a member or of a case lends or takes, given the place of the root or the root itself.
None of them breaks off. What they lend for writing, and what they change when they take a value, is owned
alone by whoever owns the root alone. -/

namespace Accessors

/-! ### Members -/

namespace Member
variable (m : Member) (R : Ty) (s : Store) (p : Place) (v : Value) (pos : Position)

theorem get_fr : (Erased.of (m.fr R)).get s p = .ok (.done (m.type.read s (m.place p))) := rfl

theorem getMut_w : (Erased.of (m.w R)).getMut s p = .ok (.done (some (m.place p))) := rfl

theorem getMut_fw : (Erased.of (m.fw R)).getMut s p = .ok (.done (m.type.write s (m.place p))) := rfl

theorem get_frAt : (Erased.of (m.frAt R pos)).get s p = .ok (.done (m.type.readAt pos s (m.place p))) := rfl

theorem getMut_fwAt :
    (Erased.of (m.fwAt R pos)).getMut s p = .ok (.done (m.type.writeAt pos s (m.place p))) := rfl

theorem getOwned_o : (Erased.of (m.o R)).getOwned s v =
    .ok (.done ((inVariable s v fun s p => s.takeOut (m.place p)).1,
      some (inVariable s v fun s p => s.takeOut (m.place p)).2)) := rfl

theorem getOwned_fo : (Erased.of (m.fo R)).getOwned s v =
    .ok (.done (inVariable s v fun s p => m.type.take s (m.place p))) := rfl

end Member

/-! ### Cases -/

namespace UnionCase
variable (c : UnionCase) (U : Ty) (s : Store) (p : Place) (v : Value)

theorem getMut_caseW : (Erased.of (c.caseW U)).getMut s p = .ok (.done (c.extract s p)) := rfl

theorem getMut_fw :
    (Erased.of (c.fw U)).getMut s p = .ok (.done ((c.extract s p).bind (c.type.write s))) := rfl

theorem getOwned_fo : (Erased.of (c.fo U)).getOwned s v =
    .ok (.done (inVariable s v fun s p =>
      match c.extract s p with
      | some q => c.type.take s q
      | none => (s, none))) := rfl

theorem get_fieldR (V : Ty) (i : Nat) :
    (Erased.of (c.fieldR U V i)).get s p = .ok (.done ((c.extract s p).map (·.item i))) := rfl

theorem getMut_fieldW (V : Ty) (i : Nat) :
    (Erased.of (c.fieldW U V i)).getMut s p = .ok (.done ((c.extract s p).map (·.item i))) := rfl

theorem eq_inside_of_extract {q : Place} (h : c.extract s p = some q) : q = p.inside := by
  unfold extract at h
  split at h
  · split at h
    · exact (Option.some.inj h).symm
    · cases h
  · cases h

theorem extract_eq_some {q : Place} : c.extract s p = some q ↔
    q = p.inside ∧ ∃ v, s.get? p = some (.alternative c.index v) := by
  constructor
  · intro h
    refine ⟨c.eq_inside_of_extract s p h, ?_⟩
    unfold extract at h
    split at h
    · rename_i i v hv
      split at h
      · rename_i active
        exact ⟨v, active ▸ hv⟩
      · cases h
    · cases h
  · rintro ⟨rfl, v, hv⟩
    simp only [extract, hv, ↓reduceIte]

theorem base_of_extract {q : Place} (h : c.extract s p = some q) : q.base = p.base := by
  rw [c.eq_inside_of_extract s p h, Place.base_inside]

/-- The payload of a union while the case is active. -/
def part? (v : Value) : Option Value :=
  match v with
  | .alternative i u => if i = c.index then some u else none
  | _ => none

theorem map_value_extract : (c.extract s p).map s.value = c.part? (s.value p) := by
  unfold extract
  cases h : s.get? p with
  | none =>
    rw [Store.value, h]
    rfl
  | some u =>
    rw [Store.value_eq h]
    cases u with
    | alternative i u =>
      simp only [part?]
      split
      · rw [Option.map_some, Place.inside, s.value_step, Store.value_eq h]
        rfl
      · rfl
    | _ => rfl

variable {c s p} in
theorem extract_congr {t : Store} (h : s.Alike t p) : c.extract s p = c.extract t p := by
  rcases h.get? with ⟨hs, ht⟩ | ⟨v, w, hs, ht, same⟩ <;> simp only [extract, hs, ht]
  cases v <;> cases w <;> simp_all [Value.outline]

end UnionCase

/-! ### Uses that stay with the owner of the root -/

namespace Erased
variable {R V : Ty} {e : Erased R V}

/-- An accessor leads from a root that a variable owns alone only to what the variable owns alone, and it takes
    values only out of roots. -/
structure Isolated (e : Erased R V) : Prop where
  lent : ∀ {s : Store} {p : Place} {r : Run (Option Place)} {q : Place}, e.getMut s p = .ok r →
    r.outcome = .ok (some q) → ∀ {i : Nat}, s.Exclusive i p.base → s.Exclusive i q.base
  taken : ∀ {s : Store} {v : Value} {r : Run (Store × Option Value)} {x : Store × Option Value},
    e.getOwned s v = .ok r → r.outcome = .ok x → ∀ i, s.ConfinedTo i x.1

theorem Isolated.of_reads (hw : e.flavor.writes = false) (ho : e.flavor.owns = false) : e.Isolated where
  lent h := by
    simp only [getMut, hw, Bool.false_eq_true, ↓reduceDIte, reduceCtorEq] at h
  taken h := by
    simp only [getOwned, ho, Bool.false_eq_true, ↓reduceDIte, reduceCtorEq] at h

theorem Isolated.of_writes (ho : e.flavor.owns = false) {target : Store → Place → Option Place}
    (lends : ∀ s p, e.getMut s p = .ok (.done (target s p)))
    (h : ∀ {s : Store} {p q : Place} {i : Nat}, target s p = some q → s.Exclusive i p.base → s.Exclusive i q.base) :
    e.Isolated where
  lent hr hq := by
    rw [lends] at hr
    cases hr
    exact h (Except.ok.inj hq)
  taken h := by
    simp only [getOwned, ho, Bool.false_eq_true, ↓reduceDIte, reduceCtorEq] at h

/-- An accessor that takes values works on a variable of its own, and needs to change only what that variable
    owns alone. -/
theorem Isolated.of_owns {α : Type} (take : Store → Place → Store × α) (g : α → Option Value)
    (hw : e.flavor.writes = false)
    (takes : ∀ s v, e.getOwned s v = .ok (.done ((inVariable s v take).1, g (inVariable s v take).2)))
    (h : ∀ {s : Store} {p : Place} {i : Nat}, s.Exclusive i p.base → s.ConfinedTo i (take s p).1) :
    e.Isolated where
  lent h := by
    simp only [getMut, hw, Bool.false_eq_true, ↓reduceDIte, reduceCtorEq] at h
  taken {s v r x} hr hx i := by
    rw [takes] at hr
    cases hr
    cases hx
    have inside : (s.push v).1.ConfinedTo s.slots.length (take (s.push v).1 (s.push v).2).1 :=
      h (i := s.slots.length) .slot
    exact inside.pop i

end Erased

namespace Member
variable {m : Member} {R : Ty} {f : Flavor} {V : Ty} {e : Erased R V}

theorem isolated (h : m.accessor? R f = some (.fixed e)) : e.Isolated := by
  unfold accessor? at h
  split at h
  · cases f <;> cases h
    · exact .of_reads rfl rfl
    · exact .of_writes rfl (m.getMut_w R) fun hq owner => by
        cases hq
        exact owner
    · exact .of_reads rfl rfl
    · exact .of_writes rfl (m.getMut_fw R) fun hq owner => Ty.write_exclusive (p := m.place _) owner hq
    · exact .of_owns (fun s p => s.takeOut (m.place p)) some rfl (m.getOwned_o R) fun {_ p _} owner =>
        owner.set_confined (p := m.place p) .moved
    · exact .of_owns (fun s p => m.type.take s (m.place p)) id rfl (m.getOwned_fo R) fun {_ p _} owner =>
        Ty.take_confined (p := m.place p) owner
  · cases h

end Member

namespace UnionCase
variable {c : UnionCase} {U : Ty} {f : Flavor} {V : Ty} {e : Erased U V}

theorem isolated_case (h : c.caseAccessor? U f = some (.fixed e)) : e.Isolated := by
  unfold caseAccessor? at h
  split at h
  · cases f <;> cases h
    · exact .of_reads rfl rfl
    · exact .of_writes rfl (c.getMut_caseW U) fun hq owner => c.base_of_extract _ _ hq ▸ owner
  · cases h

theorem isolated_unwrap (h : c.unwrapAccessor? U f = some (.fixed e)) : e.Isolated := by
  unfold unwrapAccessor? at h
  split at h
  · cases f <;> cases h
    · exact .of_reads rfl rfl
    · refine .of_writes rfl (c.getMut_fw U) fun hq owner => ?_
      obtain ⟨q, hq, hw⟩ := Option.bind_eq_some_iff.mp hq
      exact Ty.write_exclusive (c.base_of_extract _ _ hq ▸ owner) hw
    · refine .of_owns (fun s p =>
        match c.extract s p with
        | some q => c.type.take s q
        | none => (s, none)) id rfl (c.getOwned_fo U) fun {s p i} owner => ?_
      cases hq : c.extract s p with
      | none => exact .refl i s
      | some q => exact Ty.take_confined (c.base_of_extract _ _ hq ▸ owner)
  · cases h

end UnionCase
end Accessors
