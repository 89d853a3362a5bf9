import Accessors.Value

/-! # Paths into values

The steps from a value to a value inside it, and what is there. The laws say that what was put at a path
is found there, that putting back what is there changes nothing, and that of two values put at one path
the last stays. -/

namespace Accessors.Value

/-- One step further into a value. -/
inductive Step where
  /-- The one value inside. -/
  | inside
  /-- The item at an index. -/
  | item (index : Nat)
deriving DecidableEq, Repr

/-- The value one step further in. -/
def child? : Value → Step → Option Value
  | holding v, .inside => some v
  | guarded _ v, .inside => some v
  | entry _ v, .inside => some v
  | alternative _ v, .inside => some v
  | items vs, .item i => vs[i]?
  | _, _ => none

/-- The value with `w` one step further in. -/
def setChild : Value → Step → Value → Value
  | holding _, .inside, w => holding w
  | guarded b _, .inside, w => guarded b w
  | entry k _, .inside, w => entry k w
  | alternative i _, .inside, w => alternative i w
  | items vs, .item i, w => items (vs.set i w)
  | v, _, _ => v

/-- The value at the end of some steps. -/
def get? (v : Value) : List Step → Option Value
  | [] => some v
  | s :: ss =>
    match v.child? s with
    | some u => u.get? ss
    | none => none

/-- The value with `w` at the end of some steps; steps that lead nowhere change nothing. -/
def set (v : Value) : List Step → Value → Value
  | [], w => w
  | s :: ss, w =>
    match v.child? s with
    | some u => v.setChild s (u.set ss w)
    | none => v

section
variable {v u w x : Value} {s : Step}

theorem child?_setChild (h : v.child? s = some u) : (v.setChild s w).child? s = some w := by
  cases v <;> cases s <;> simp_all [child?, setChild]
  exact List.getElem?_set_self (List.getElem?_eq_some_iff.mp h).1

theorem setChild_self (h : v.child? s = some u) : v.setChild s u = v := by
  cases v <;> cases s <;> simp_all [child?, setChild]
  obtain ⟨hi, rfl⟩ := List.getElem?_eq_some_iff.mp h
  exact List.set_getElem_self hi

theorem setChild_setChild : (v.setChild s w).setChild s x = v.setChild s x := by
  cases v <;> cases s <;> simp [setChild]

theorem get?_append (v : Value) (ss ts : List Step) :
    v.get? (ss ++ ts) = (v.get? ss).bind (·.get? ts) := by
  induction ss generalizing v with
  | nil => rfl
  | cons s ss ih =>
    simp only [List.cons_append, get?]
    cases v.child? s with
    | none => rfl
    | some u => exact ih u

theorem get?_set {ss : List Step} (h : v.get? ss = some u) : (v.set ss w).get? ss = some w := by
  induction ss generalizing v with
  | nil => rfl
  | cons s ss ih =>
    simp only [get?] at h
    cases hc : v.child? s with
    | none => simp [hc] at h
    | some c =>
      simp only [hc] at h
      simp only [set, hc, get?, child?_setChild hc]
      exact ih h

theorem set_self {ss : List Step} (h : v.get? ss = some u) : v.set ss u = v := by
  induction ss generalizing v with
  | nil => exact (Option.some.inj h).symm
  | cons s ss ih =>
    simp only [get?] at h
    cases hc : v.child? s with
    | none => simp [hc] at h
    | some c =>
      simp only [hc] at h
      simp only [set, hc, ih h, setChild_self hc]

theorem set_set (ss : List Step) : (v.set ss w).set ss x = v.set ss x := by
  induction ss generalizing v with
  | nil => rfl
  | cons s ss ih =>
    simp only [set]
    cases hc : v.child? s with
    | none => simp [hc]
    | some c => simp only [child?_setChild hc, ih, setChild_setChild]

end

end Accessors.Value
