import Accessors.Ty

/-! # The layers of a type

The traits of a wrapped type are read in one of two ways: its two outermost wrappers merge into a
combination, or the outermost wrapper stands alone. What merges is a pair of base shapes, so a payload
that is itself a combination never merges any further. Every fact about the traits of a type follows from
these two cases. -/

namespace Accessors

/-! ### Shapes -/

namespace Shape
variable {a b k : Shape}

theorem combine_eq_some (h : combine a b = some k) : k.outer = a ∧ k.inner = some b := by
  cases a <;> cases b <;> simp [combine] at h <;> subst h <;> exact ⟨rfl, rfl⟩

theorem isCombination_of_combine (h : combine a b = some k) : k.isCombination = true := by
  simp [isCombination, (combine_eq_some h).2]

/-- Only base shapes merge. -/
theorem not_isCombination_of_combine (h : combine a b = some k) : b.isCombination = false := by
  cases a <;> cases b <;> simp [combine] at h <;> rfl

theorem combine_plain (a : Shape) : combine a plain = none := by
  cases a <;> rfl

end Shape

namespace Wrapper

theorem shape_ne_plain (w : Wrapper) : w.shape ≠ .plain := by
  cases w <;> simp [shape]

theorem not_sharedGuard_shape (w : Wrapper) : w.shape.sharedGuard = false := by
  cases w <;> rfl

theorem sharing_of_sharedGuard {w v : Wrapper} {k : Shape} (h : Shape.combine w.shape v.shape = some k)
    (hk : k.sharedGuard = true) : w.sharing ≠ .none := by
  cases w <;> cases v <;> simp [Shape.combine, shape] at h <;> subst h <;> first | decide | cases hk

/-- A combination with a handle has it inside an optional, around an optional, or around what a lock guards. -/
theorem handle_of_combine {w v : Wrapper} {k : Shape} (h : Shape.combine w.shape v.shape = some k)
    (hk : k.involvesSharing = true) :
    w = .optional ∧ v.sharing ≠ .none ∧ k = .optionalOfShared ∨
      w.sharing ≠ .none ∧ v = .optional ∧ k = .sharedOfOptional ∨ w.sharing ≠ .none ∧ k.sharedGuard = true := by
  cases w <;> cases v <;> simp [Shape.combine, shape] at h <;> subst h <;>
    first
    | exact absurd hk (by decide)
    | decide

theorem involvesSharing_shape (w : Wrapper) : w.shape.involvesSharing = (w.sharing != .none) := by
  cases w <;> rfl

end Wrapper

namespace Ty
variable {w v : Wrapper} {t u : Ty} {k : Shape}

/-! ### The two readings of a wrapped type -/

theorem traits_of_combine (h : Shape.combine w.shape t.traits.shape = some k) :
    (wrap w t).traits =
      ⟨k, if w.sharing = .none then t.traits.sharing else w.sharing, true, false, t.traits.inner⟩ := by
  simp only [traits, h]

theorem traits_of_combine_eq_none (h : Shape.combine w.shape t.traits.shape = none) :
    (wrap w t).traits = ⟨w.shape, w.sharing, false, t.traits.shape.isCombination, t⟩ := by
  simp only [traits, h]

theorem traits_of_not_isCombination (h : (wrap w t).traits.shape.isCombination = false) :
    (wrap w t).traits = ⟨w.shape, w.sharing, false, t.traits.shape.isCombination, t⟩ := by
  cases hc : Shape.combine w.shape t.traits.shape with
  | none => exact traits_of_combine_eq_none hc
  | some k =>
    rw [traits_of_combine hc, Shape.isCombination_of_combine hc] at h
    cases h

/-- How the traits of `wrap w t` are read. -/
inductive Layers (w : Wrapper) : Ty → Prop where
  /-- The wrapper merges with the one right inside it, which stands alone in its own type. -/
  | merged {v : Wrapper} {u : Ty} {k : Shape} (pair : Shape.combine w.shape v.shape = some k)
      (payload : (wrap v u).traits = ⟨v.shape, v.sharing, false, u.traits.shape.isCombination, u⟩)
      (whole : (wrap w (wrap v u)).traits =
        ⟨k, if w.sharing = .none then v.sharing else w.sharing, true, false, u⟩) : Layers w (wrap v u)
  /-- The wrapper stands alone. -/
  | single {t : Ty} (pair : Shape.combine w.shape t.traits.shape = none)
      (whole : (wrap w t).traits = ⟨w.shape, w.sharing, false, t.traits.shape.isCombination, t⟩) :
      Layers w t

theorem layers (w : Wrapper) (t : Ty) : Layers w t := by
  cases hc : Shape.combine w.shape t.traits.shape with
  | none => exact .single hc (traits_of_combine_eq_none hc)
  | some k =>
    cases t with
    | plain n =>
      simp only [traits, Shape.combine_plain] at hc
      cases hc
    | wrap v u =>
      have hu := traits_of_not_isCombination (Shape.not_isCombination_of_combine hc)
      refine .merged (k := k) ?_ hu ?_
      · rwa [hu] at hc
      · rw [traits_of_combine hc, hu]

theorem mergedPair?_of_merged (h : (wrap w (wrap v u)).traits.merged = true) :
    (wrap w (wrap v u)).mergedPair? = some (w, v) := by
  simp [mergedPair?, h]

theorem mergedPair?_of_not_merged (h : (wrap w t).traits.merged = false) :
    (wrap w t).mergedPair? = none := by
  cases t <;> simp [mergedPair?, h]

/-- The traits of a type are plain only if the type is. -/
theorem traits_shape_eq_plain : t.traits.shape = .plain ↔ ∃ n, t = plain n := by
  constructor
  · intro h
    cases t with
    | plain n => exact ⟨n, rfl⟩
    | wrap w u =>
      rcases layers w u with ⟨pair, -, whole⟩ | ⟨-, whole⟩ <;> rw [whole] at h
      · have := Shape.isCombination_of_combine pair
        simp only at h
        rw [h] at this
        cases this
      · exact absurd h w.shape_ne_plain
  · rintro ⟨n, rfl⟩
    rfl

/-! ### The name at the core -/

/-- The name of the plain type that all the wrappers are around. -/
def core : Ty → String
  | plain n => n
  | wrap _ t => t.core

end Ty
end Accessors
