import Accessors.Proofs.Accessor.Compose

/-! # Flavors joined from either end

When the flavors of a chain compose, and to what. Joined from the left only the first flavor leads, and an owning one
may be followed by any others. Joined from the right every flavor leads what comes after it, so owning flavors have to
stand in front of the rest. Chains that compose from the right compose from the left too, to the same flavor. -/

namespace Accessors.Flavor
variable {f g k l : Flavor} {fs : List Flavor}

/-- All the flavors are of one family. -/
def OneFamily (fs : List Flavor) : Prop := ∃ m, ∀ f ∈ fs, f.family = m

/-- Some owning flavors, if any, and after them flavors of one family, if any. -/
def OwnsFirst (fs : List Flavor) : Prop :=
  ∃ owns rest, fs = owns ++ rest ∧ (∀ f ∈ owns, f.family = .own) ∧ OneFamily rest

/-! ### What flavors compose to -/

/-- What a flavor composes to with those after it. The first one tells the family, and all of them whether it is
    total; only a single leg keeps a case flavor. -/
structure ComposedOf (f : Flavor) (fs : List Flavor) (k : Flavor) : Prop where
  family : k.family = f.family
  total : k.total = (f :: fs).all (·.total)
  isCase : fs ≠ [] → k.isCase = false

theorem ComposedOf.unique (hk : ComposedOf f fs k) (hl : ComposedOf f fs l) (h : fs ≠ []) : k = l :=
  eq_of_family (hk.isCase h) (hl.isCase h) (hk.family.trans hl.family.symm) (hk.total.trans hl.total.symm)

theorem composedOf_single (f : Flavor) : ComposedOf f [] f :=
  ⟨rfl, (Bool.and_true _).symm, fun h => absurd rfl h⟩

theorem composedOf_of_composeLeft (h : composeLeft (f :: fs) = some k) : ComposedOf f fs k := by
  induction fs generalizing f with
  | nil =>
    cases h
    exact composedOf_single _
  | cons g gs ih =>
    obtain ⟨m, hm, hk⟩ := Option.bind_eq_some_iff.mp h
    have rest : ComposedOf m gs k := ih hk
    refine ⟨rest.family.trans (family_of_compose hm), ?_, fun _ => ?_⟩
    · simp only [rest.total, List.all_cons, ← total_of_compose hm, Bool.and_assoc]
    · cases gs with
      | nil =>
        cases hk
        exact not_isCase_of_compose hm
      | cons _ _ => exact rest.isCase (List.cons_ne_nil _ _)

theorem composedOf_of_composeRight (h : composeRight (f :: fs) = some k) : ComposedOf f fs k := by
  induction fs generalizing f k with
  | nil =>
    cases h
    exact composedOf_single _
  | cons g gs ih =>
    obtain ⟨m, hm, hk⟩ := Option.bind_eq_some_iff.mp h
    refine ⟨family_of_compose hk, ?_, fun _ => not_isCase_of_compose hk⟩
    simp only [← total_of_compose hk, (ih hm).total, List.all_cons]

/-! ### Which flavors compose -/

theorem oneFamily_cons_iff : OneFamily (f :: fs) ↔ ∀ g ∈ fs, g.family = f.family := by
  simp only [OneFamily, List.forall_mem_cons, exists_eq_left']

/-- The first two flavors are joined first, to one of the first one's family. -/
theorem isSome_composeLeft_iff :
    (composeLeft (f :: fs)).isSome = true ↔ f.family = .own ∨ OneFamily (f :: fs) := by
  rw [oneFamily_cons_iff]
  induction fs generalizing f with
  | nil => simp [composeLeft]
  | cons g gs ih =>
    have step : composeLeft (f :: g :: gs) = (f.compose g).bind fun k => composeLeft (k :: gs) := rfl
    have leads : (f.compose g).isSome = true ↔ f.family = .own ∨ g.family = f.family := by
      rw [isSome_compose, eq_comm (a := g.family)]
    rw [step, List.forall_mem_cons]
    cases hk : f.compose g with
    | none =>
      rw [hk] at leads
      simp only [Option.isSome_none, Bool.false_eq_true, false_iff, not_or] at leads
      simp [leads]
    | some k =>
      rw [hk] at leads
      simp only [Option.isSome_some, true_iff] at leads
      rw [Option.bind_some, ih, family_of_compose hk, or_and_left, and_iff_right leads]

theorem OneFamily.ownsFirst (h : OneFamily fs) : OwnsFirst fs := ⟨[], fs, rfl, List.forall_mem_nil _, h⟩

theorem OwnsFirst.cons_of_owns (h : OwnsFirst fs) (hf : f.family = .own) : OwnsFirst (f :: fs) := by
  obtain ⟨owns, rest, rfl, hown, hrest⟩ := h
  exact ⟨f :: owns, rest, rfl, List.forall_mem_cons.mpr ⟨hf, hown⟩, hrest⟩

theorem OwnsFirst.head (h : OwnsFirst (f :: fs)) : f.family = .own ∨ OneFamily (f :: fs) := by
  obtain ⟨owns, rest, split, hown, hrest⟩ := h
  cases owns with
  | nil =>
    rw [List.nil_append] at split
    exact .inr (split ▸ hrest)
  | cons x owns =>
    obtain ⟨rfl, -⟩ := List.cons.inj split
    exact .inl (hown f (.head _))

theorem OwnsFirst.tail (h : OwnsFirst (f :: fs)) : OwnsFirst fs := by
  obtain ⟨owns, rest, split, hown, m, hm⟩ := h
  cases owns with
  | nil =>
    rw [List.nil_append] at split
    subst split
    exact OneFamily.ownsFirst ⟨m, (List.forall_mem_cons.mp hm).2⟩
  | cons x owns =>
    obtain ⟨-, rfl⟩ := List.cons.inj split
    exact ⟨owns, rest, rfl, (List.forall_mem_cons.mp hown).2, m, hm⟩

/-- A flavor in front of others leads them if it owns, or if it is of the family of the one right after it. -/
theorem ownsFirst_cons_cons :
    OwnsFirst (f :: g :: fs) ↔ OwnsFirst (g :: fs) ∧ (f.family = .own ∨ f.family = g.family) := by
  constructor
  · intro h
    refine ⟨h.tail, h.head.imp_right fun one => ?_⟩
    exact (oneFamily_cons_iff.mp one g (.head _)).symm
  · rintro ⟨h, own | same⟩
    · exact h.cons_of_owns own
    · rcases h.head with own | one
      · exact h.cons_of_owns (same.trans own)
      · refine OneFamily.ownsFirst (oneFamily_cons_iff.mpr (List.forall_mem_cons.mpr ⟨same.symm, fun x hx => ?_⟩))
        exact (oneFamily_cons_iff.mp one x hx).trans same.symm

/-- What the flavors after the first one compose to is of the family of the second one. -/
theorem isSome_composeRight_iff : (composeRight (f :: fs)).isSome = true ↔ OwnsFirst (f :: fs) := by
  induction fs generalizing f with
  | nil => simpa [composeRight] using (oneFamily_cons_iff.mpr (List.forall_mem_nil _)).ownsFirst
  | cons g gs ih =>
    have step : composeRight (f :: g :: gs) = (composeRight (g :: gs)).bind fun k => f.compose k := rfl
    rw [step, ownsFirst_cons_cons, ← ih]
    cases hk : composeRight (g :: gs) with
    | none => simp
    | some k => simp only [Option.bind_some, isSome_compose, (composedOf_of_composeRight hk).family,
        Option.isSome_some, true_and]

theorem composeLeft_of_composeRight (h : composeRight (f :: fs) = some k) : composeLeft (f :: fs) = some k := by
  have right : OwnsFirst (f :: fs) := isSome_composeRight_iff.mp (by rw [h]; rfl)
  obtain ⟨l, hl⟩ := Option.isSome_iff_exists.mp (isSome_composeLeft_iff.mpr right.head)
  cases fs with
  | nil => exact h
  | cons g gs =>
    rw [hl, (composedOf_of_composeLeft hl).unique (composedOf_of_composeRight h) (List.cons_ne_nil _ _)]

/-- From the left some flavors compose if the first one owns or all are of one family, and from the right if those that
    own stand in front of some of one family; then the result is the same. Of two flavors or more it is of the family of
    the first one and no case flavor, and it is total exactly if all of them are. -/
theorem composed_from_either_end (f : Flavor) (fs : List Flavor) :
    ((composeLeft (f :: fs)).isSome = true ↔ f.family = .own ∨ OneFamily (f :: fs)) ∧
    ((composeRight (f :: fs)).isSome = true ↔ OwnsFirst (f :: fs)) ∧
    (∀ k, composeRight (f :: fs) = some k → composeLeft (f :: fs) = some k) ∧
    ∀ k, composeLeft (f :: fs) = some k ∨ composeRight (f :: fs) = some k → fs ≠ [] →
      k.family = f.family ∧ k.isCase = false ∧ (k.total = true ↔ ∀ g ∈ f :: fs, g.total = true) := by
  refine ⟨isSome_composeLeft_iff, isSome_composeRight_iff, fun _ => composeLeft_of_composeRight, fun k h more => ?_⟩
  have composed : ComposedOf f fs k := h.elim composedOf_of_composeLeft composedOf_of_composeRight
  exact ⟨composed.family, composed.isCase more, by rw [composed.total, List.all_eq_true]⟩

/-- Some legs compose from the left only. -/
example : composeLeft [.owned, .readable, .writable] = some .owned ∧
    composeRight [.owned, .readable, .writable] = none := by decide

end Accessors.Flavor
