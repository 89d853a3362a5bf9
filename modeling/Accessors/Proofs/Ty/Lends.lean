import Accessors.Proofs.Ty.Passage

/-! # Types that lend what is inside

The wrappers that a type's step in one go passes, and what the table of shapes promises of them: where both
the reading and the writing accessor are offered, every wrapper passed lends what is inside for writing, and
at most one of them is a handle. -/

namespace Accessors.Ty
variable {t u : Ty} {w v : Wrapper} {k : Shape} {s : Store} {p : Place} {pos : Position}

/-- The wrappers passed by the step into a type: both if two merge, unless the inner one is a guard. -/
def passage : Ty → List Wrapper
  | plain _ => []
  | wrap w t =>
    match (wrap w t).mergedPair? with
    | some (_, v) => if (wrap w t).traits.shape.sharedGuard then [w] else [w, v]
    | none => [w]

/-- The way to an element of a type: through the outer wrapper of two that merge if it is no container, and on
    into the inner one if it is. -/
def wayAt? : Ty → Option Passage.At
  | plain _ => none
  | wrap w t =>
    match (wrap w t).mergedPair? with
    | some (_, v) => if w.positional then some ⟨[], w, [v]⟩ else some ⟨[w], v, []⟩
    | none => some ⟨[], w, []⟩

/-- The cells of the handles that the step into a value goes through. -/
def passed (t : Ty) (s : Store) (p : Place) : List Nat := Passage.handles s t.passage p

/-- The cells of the handles that the step to an element goes through. -/
def passedAt (t : Ty) (pos : Position) (s : Store) (p : Place) : List Nat :=
  match t.wayAt? with
  | some a => a.handles pos s p
  | none => []

/-! ### Steps as passages -/

theorem read_eq_passage (t : Ty) (s : Store) (p : Place) : t.read s p = Passage.read s t.passage p := by
  cases t with
  | plain n => rfl
  | wrap w t =>
    simp only [read, passage]
    cases (wrap w t).mergedPair? with
    | none => simp [Passage.read]
    | some pair =>
      simp only
      split <;> simp [Passage.read]

theorem write_eq_passage (t : Ty) (s : Store) (p : Place) : t.write s p = Passage.write s t.passage p := by
  cases t with
  | plain n => rfl
  | wrap w t =>
    simp only [write, passage]
    cases (wrap w t).mergedPair? with
    | none => simp [Passage.write]
    | some pair =>
      simp only
      split <;> simp [Passage.write]

theorem readAt_eq_way {a : Passage.At} (h : t.wayAt? = some a) : t.readAt pos s p = a.read pos s p := by
  cases t with
  | plain n => cases h
  | wrap w t =>
    simp only [wayAt?] at h
    simp only [readAt]
    cases hm : (wrap w t).mergedPair? with
    | none =>
      rw [hm] at h
      cases h
      simp [Passage.At.read, Passage.read]
    | some pair =>
      rw [hm] at h
      simp only at h ⊢
      split at h <;> rename_i hw <;> cases h <;> simp [Passage.At.read, Passage.read, hw]

theorem writeAt_eq_way {a : Passage.At} (h : t.wayAt? = some a) : t.writeAt pos s p = a.write pos s p := by
  cases t with
  | plain n => cases h
  | wrap w t =>
    simp only [wayAt?] at h
    simp only [writeAt]
    cases hm : (wrap w t).mergedPair? with
    | none =>
      rw [hm] at h
      cases h
      simp [Passage.At.write, Passage.write]
    | some pair =>
      rw [hm] at h
      simp only at h ⊢
      split at h <;> rename_i hw <;> cases h <;> simp [Passage.At.write, Passage.write, hw]

/-! ### What the table promises -/

/-- Where a type is entered for reading and for writing, each wrapper passed lends what is inside for writing. -/
theorem lendsMut_of_offered (hr : t.capabilities.offered.contains .failableReadable = true)
    (hw : t.capabilities.offered.contains .failableWritable = true) : ∀ w ∈ t.passage, w.lendsMut = true := by
  cases t with
  | plain n => exact List.forall_mem_nil _
  | wrap w t =>
    rcases layers w t with @⟨v, u, k, pair, -, whole⟩ | ⟨-, whole⟩
    · simp only [passage, mergedPair?_of_merged (congrArg Traits.merged whole), whole]
      simp only [capabilities, whole] at hr hw
      cases w <;> cases v <;> simp [Shape.combine, Wrapper.shape] at pair <;> subst pair <;>
        first
        | (cases hr; done)
        | (simp only [Shape.sharedGuard]; decide)
    · simp only [passage, mergedPair?_of_not_merged (congrArg Traits.merged whole), List.mem_singleton,
        forall_eq]
      simp only [capabilities, whole] at hr hw
      cases w <;>
        first
        | rfl
        | (cases hr; done)
        | cases hw

theorem once_passage (t : Ty) : Passage.Once t.passage := by
  cases t with
  | plain n => exact .nil
  | wrap w t =>
    rcases layers w t with @⟨v, u, k, pair, -, whole⟩ | ⟨-, whole⟩
    · simp only [passage, mergedPair?_of_merged (congrArg Traits.merged whole)]
      split
      · exact List.pairwise_singleton _ _
      · refine List.pairwise_pair.mpr ?_
        cases w <;> cases v <;> simp [Shape.combine, Wrapper.shape] at pair <;>
          first
          | exact .inl rfl
          | exact .inr rfl
    · simp only [passage, mergedPair?_of_not_merged (congrArg Traits.merged whole)]
      exact List.pairwise_singleton _ _

/-- Where elements are lent for reading and for writing, the way to them lends them without any handle. -/
theorem wayAt_of_offered (hr : t.capabilities.atPosition.contains .failableReadable = true)
    (hw : t.capabilities.atPosition.contains .failableWritable = true) :
    ∃ a, t.wayAt? = some a ∧ a.Lends := by
  cases t with
  | plain n => cases hr
  | wrap w t =>
    rcases layers w t with @⟨v, u, k, pair, -, whole⟩ | ⟨-, whole⟩
    · simp only [wayAt?, mergedPair?_of_merged (congrArg Traits.merged whole)]
      simp only [capabilities, whole] at hr hw
      have optional : ∀ u ∈ [Wrapper.optional], u.lendsMut = true ∧ u.sharing = .none :=
        List.forall_mem_singleton.mpr ⟨rfl, rfl⟩
      cases w <;> cases v <;> simp [Shape.combine, Wrapper.shape] at pair <;> subst pair <;>
        first
        | (cases hw; done)
        | exact ⟨_, rfl, optional, rfl, List.forall_mem_nil _⟩
        | exact ⟨_, rfl, List.forall_mem_nil _, rfl, optional⟩
    · simp only [wayAt?, mergedPair?_of_not_merged (congrArg Traits.merged whole)]
      simp only [capabilities, whole] at hr hw
      refine ⟨_, rfl, List.forall_mem_nil _, ?_, List.forall_mem_nil _⟩
      cases w <;>
        first
        | rfl
        | cases hw

end Accessors.Ty
