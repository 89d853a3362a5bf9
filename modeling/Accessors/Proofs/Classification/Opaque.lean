import Accessors.Proofs.Classification.Chain

/-! # Opaque inner types

A wrapper that stands alone marks its payload as opaque exactly if the payload is a combination. A combination has
no mark of its own: its inner type is that of the payload that merged, and whether that one was marked is lost. -/

namespace Accessors

namespace Classification
variable {catalog : Catalog} {config : Config} {t : TypeExpr} {c : Classification}

/-- The mark of a wrapper that stands alone tells whether its inner type is a combination. -/
theorem isOpaque_iff_of_single (nested : config.nestedCombinations = true) (lenient : config.strictNesting = false)
    (h : (classify catalog config t).outcome = .ok c) (single : c.shape.isCombination = false) :
    ∃ inner, (classify catalog config c.inner).outcome = .ok inner ∧
      (c.isOpaque = true ↔ inner.shape.isCombination = true) := by
  rcases classifyNode_cases catalog t with ⟨-, eq⟩ | ⟨e, -, -, eq⟩ | ⟨e, p, k, he, hs, -⟩
  · have plain := h
    rw [outcome_classify, eq] at plain
    cases plain
    exact ⟨_, h, by simp [plain, Shape.isCombination, Shape.inner]⟩
  · rw [outcome_classify, eq] at h
    cases h
  · rw [outcome_classify, classifyNode_of_select nested he hs] at h
    obtain ⟨payload, hp, h⟩ := Logged.outcome_andThen_eq_ok.mp h
    rw [← outcome_classify] at hp
    rcases combineWith_cases t e p k payload with ⟨shape, pair, eq⟩ | ⟨alone, eq⟩ | ⟨-, combined, eq⟩
    · rw [eq] at h
      cases h
      exact absurd ((Shape.isCombination_of_combine pair).symm.trans single) Bool.noConfusion
    · rw [eq] at h
      cases h
      exact ⟨payload, hp, by simp [Entry.alone, alone]⟩
    · rw [eq, lenient] at h
      cases h
      exact ⟨payload, hp, by simp [combined]⟩

/-- A combination takes over the inner type of its payload, but not the mark. -/
theorem isOpaque_of_combination (coherent : catalog.Coherent) (nested : config.nestedCombinations = true)
    (lenient : config.strictNesting = false) (h : (classify catalog config t).outcome = .ok c)
    (combination : c.shape.isCombination = true) : c.isOpaque = false ∧
      ∃ p payload inner, catalog.payload? t = some p ∧ (classify catalog config p).outcome = .ok payload ∧
        (classify catalog config c.inner).outcome = .ok inner ∧
        (inner.shape.isCombination = true ↔ payload.isOpaque = true) := by
  rcases classifyNode_cases catalog t with ⟨-, eq⟩ | ⟨e, -, -, eq⟩ | ⟨e, p, k, he, hs, -⟩
  · rw [outcome_classify, eq] at h
    cases h
    cases combination
  · rw [outcome_classify, eq] at h
    cases h
  · rw [outcome_classify, classifyNode_of_select nested he hs] at h
    obtain ⟨payload, hp, h⟩ := Logged.outcome_andThen_eq_ok.mp h
    rw [← outcome_classify] at hp
    have single := (coherent _ _ he).single
    rcases combineWith_cases t e p k payload with ⟨shape, pair, eq⟩ | ⟨-, eq⟩ | ⟨-, -, eq⟩
    · rw [eq] at h
      cases h
      obtain ⟨inner, hi, iff⟩ :=
        isOpaque_iff_of_single nested lenient hp (Shape.not_isCombination_of_combine pair)
      exact ⟨rfl, p, payload, inner, Catalog.payload?_eq_some.mpr ⟨e, k, he, hs⟩, hp, hi, iff.symm⟩
    · rw [eq] at h
      cases h
      exact absurd (single.symm.trans combination) Bool.noConfusion
    · rw [eq, lenient] at h
      cases h
      exact absurd (single.symm.trans combination) Bool.noConfusion

/-- What the mark of a classification tells of the inner type, which is classified as `inner` on its own. -/
structure Marks (config : Config) (t : TypeExpr) (c inner : Classification) : Prop where
  alone : (classify .standard config c.inner).outcome = .ok inner
  /-- The mark stands for a combination inside a wrapper that is none itself. -/
  mark : c.isOpaque = true ↔ c.shape.isCombination = false ∧ inner.shape.isCombination = true
  /-- The inner type of a combination is one again exactly if the payload that merged was marked. -/
  lost : c.shape.isCombination = true → ∃ p payload, Catalog.standard.payload? t = some p ∧
    (classify .standard config p).outcome = .ok payload ∧
    (inner.shape.isCombination = true ↔ payload.isOpaque = true)

/-- An inner type is marked as opaque exactly if it is a combination inside a wrapper that stands alone. -/
theorem isOpaque_iff_inner_combination (nested : config.nestedCombinations = true)
    (lenient : config.strictNesting = false) (h : (classify .standard config t).outcome = .ok c) :
    ∃ inner, Marks config t c inner := by
  cases combination : c.shape.isCombination with
  | false =>
    obtain ⟨inner, hi, iff⟩ := isOpaque_iff_of_single nested lenient h combination
    refine ⟨inner, hi, ?_, fun combined => ?_⟩
    · rw [iff, combination]
      exact ⟨fun h => ⟨rfl, h⟩, And.right⟩
    · cases combination.symm.trans combined
  | true =>
    obtain ⟨unmarked, p, payload, inner, next, hp, hi, iff⟩ :=
      isOpaque_of_combination Catalog.coherent_standard nested lenient h combination
    refine ⟨inner, hi, ?_, fun _ => ⟨p, payload, next, hp, iff⟩⟩
    rw [unmarked, combination]
    exact ⟨nofun, fun h => nomatch h.1⟩

/-- An optional vector of optional pointers: the vector alone would mark its items, the combination does not. -/
theorem isOpaque_iff_inner_combination_vector :
    (classify .standard {} (Ty.wrap .optional (.wrap .vector (.wrap .optional
      (.wrap .unique (.plain "int"))))).describe).outcome =
      .ok ⟨.optionalOfSequence, .none, (Ty.wrap .optional (.wrap .unique (.plain "int"))).describe, none, false⟩ ∧
    ∃ inner, Marks {} (Ty.wrap .optional (.wrap .vector (.wrap .optional (.wrap .unique (.plain "int"))))).describe
      ⟨.optionalOfSequence, .none, (Ty.wrap .optional (.wrap .unique (.plain "int"))).describe, none, false⟩ inner :=
  ⟨rfl, isOpaque_iff_inner_combination rfl rfl rfl⟩

/-- So an inner type without the mark can be a combination. -/
theorem unmarked_combination : ¬∀ (t : TypeExpr) (c inner : Classification),
    (classify .standard {} t).outcome = .ok c → (classify .standard {} c.inner).outcome = .ok inner →
      (c.isOpaque = true ↔ inner.shape.isCombination = true) := by
  intro all
  have marked := (all (Ty.wrap .optional (.wrap .vector (.wrap .optional (.wrap .unique (.plain "int"))))).describe
    ⟨.optionalOfSequence, .none, (Ty.wrap .optional (.wrap .unique (.plain "int"))).describe, none, false⟩
    ⟨.optionalOfIndirection, .none, .atom "int", none, false⟩ rfl rfl).mpr rfl
  cases marked

end Classification
end Accessors
