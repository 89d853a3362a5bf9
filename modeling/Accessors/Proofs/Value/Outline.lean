import Accessors.Value.Path

/-! # Outlines of values

What a value is without the values inside it: which wrappers are engaged, how long it is, which key an entry
has. Putting a value at a path leaves the outline of everything that is not at or below the path, and leaves
everything that is apart from the path altogether. -/

namespace Accessors.Value

/-- A value with nothing inside. -/
def outline : Value → Value
  | holding _ => holding moved
  | guarded b _ => guarded b moved
  | items vs => items (List.replicate vs.length moved)
  | entry k _ => entry k moved
  | alternative i _ => alternative i moved
  | v => v

section
variable {v w u x : Value} {s s' : Step} {ss ts : List Step}

theorem outline_setChild : (v.setChild s w).outline = v.outline := by
  cases v <;> cases s <;> simp [setChild, outline]

theorem child?_setChild_ne (h : s ≠ s') : (v.setChild s w).child? s' = v.child? s' := by
  cases v <;> cases s <;> cases s' <;> simp_all [setChild, child?]

theorem child?_set_ne (h : s ≠ s') : (v.set (s :: ss) w).child? s' = v.child? s' := by
  simp only [set]
  cases v.child? s with
  | none => rfl
  | some _ => exact child?_setChild_ne h

theorem child?_set (h : v.child? s = some u) : (v.set (s :: ss) w).child? s = some (u.set ss w) := by
  simp only [set, h]
  exact child?_setChild h

theorem child?_set_of_none (h : v.child? s = none) : (v.set (s :: ss) w).child? s = none := by
  simp only [set, h]

theorem outline_set_cons : (v.set (s :: ss) w).outline = v.outline := by
  simp only [set]
  cases v.child? s with
  | none => rfl
  | some _ => exact outline_setChild

/-- Putting a value at a path leaves the outline of what is not at or below the path. -/
theorem outline_get?_set (h : ¬ss <+: ts) : ((v.set ss w).get? ts).map outline = (v.get? ts).map outline := by
  induction ss generalizing v ts with
  | nil => exact absurd List.nil_prefix h
  | cons s ss ih =>
    cases ts with
    | nil => exact congrArg some outline_set_cons
    | cons t ts =>
      simp only [get?]
      by_cases hs : s = t
      · subst hs
        cases hc : v.child? s with
        | none => rw [child?_set_of_none hc]
        | some u =>
          rw [child?_set hc]
          exact ih fun hp => h (List.cons_prefix_cons.mpr ⟨rfl, hp⟩)
      · rw [child?_set_ne hs]

/-- Putting a value at a path leaves what is neither below nor above it. -/
theorem get?_set_of_apart (h : ¬ss <+: ts) (h' : ¬ts <+: ss) : (v.set ss w).get? ts = v.get? ts := by
  induction ss generalizing v ts with
  | nil => exact absurd List.nil_prefix h
  | cons s ss ih =>
    cases ts with
    | nil => exact absurd List.nil_prefix h'
    | cons t ts =>
      simp only [get?]
      by_cases hs : s = t
      · subst hs
        cases hc : v.child? s with
        | none => rw [child?_set_of_none hc]
        | some u =>
          rw [child?_set hc]
          exact ih (fun hp => h (List.cons_prefix_cons.mpr ⟨rfl, hp⟩)) fun hp =>
            h' (List.cons_prefix_cons.mpr ⟨rfl, hp⟩)
      · rw [child?_set_ne hs]

end

end Accessors.Value
