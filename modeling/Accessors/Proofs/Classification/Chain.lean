import Accessors.Proofs.Classification.Coherence

/-! # The payload chain

A type is classified after its payload, which is classified after its own payload, and so on. The chain ends at a
name that the catalog does not know, or at a type with too few arguments for its entry. Nothing off the chain is
looked at: what classification does at a node is told by the node and by what it did at the next one. -/

namespace Accessors

theorem Entry.isSome_select_iff (e : Entry) (args : List TypeExpr) :
    (e.select args).isSome = true ↔ e.needed ≤ args.length := by
  unfold Entry.select Entry.needed
  cases hk : e.key with
  | none =>
    cases hp : args[e.payload]? with
    | none =>
      have := List.getElem?_eq_none_iff.mp hp
      simp only [Option.isSome_none, Bool.false_eq_true, false_iff]
      omega
    | some p =>
      have := (List.getElem?_eq_some_iff.mp hp).1
      simp only [Option.isSome_some, true_iff]
      omega
  | some i =>
    cases hp : args[e.payload]? with
    | none =>
      have := List.getElem?_eq_none_iff.mp hp
      simp only [Option.isSome_none, Bool.false_eq_true, false_iff]
      omega
    | some p =>
      have := (List.getElem?_eq_some_iff.mp hp).1
      simp only [Option.isSome_map, isSome_getElem?]
      omega

theorem Entry.select_eq_none_iff {e : Entry} {args : List TypeExpr} : e.select args = none ↔ args.length < e.needed := by
  rw [← Option.not_isSome_iff_eq_none, e.isSome_select_iff, Nat.not_le]

theorem Entry.select_eq_some_iff {e : Entry} {args : List TypeExpr} {p : TypeExpr} {k : Option TypeExpr} :
    e.select args = some (p, k) ↔ args[e.payload]? = some p ∧
      (e.key = none ∧ k = none ∨ ∃ i l, e.key = some i ∧ args[i]? = some l ∧ k = some l) := by
  constructor
  · intro h
    obtain ⟨hp, hk, hi⟩ := Entry.select_eq_some h
    refine ⟨hp, ?_⟩
    cases key : e.key with
    | none =>
      rw [key] at hk
      exact .inl ⟨rfl, Option.isNone_iff_eq_none.mp (Option.isSome_eq_false_iff.mp hk)⟩
    | some i =>
      rw [key] at hk
      obtain ⟨l, rfl⟩ := Option.isSome_iff_exists.mp hk
      exact .inr ⟨i, l, rfl, hi i key, rfl⟩
  · rintro ⟨hp, ⟨key, rfl⟩ | ⟨i, l, key, hl, rfl⟩⟩
    · simp only [select, hp, key]
    · simp only [select, hp, key, hl, Option.map_some]

namespace Catalog
variable {c : Catalog} {t p n m : TypeExpr}

/-- The payload argument of a type that the catalog knows, if there are enough arguments. -/
def payload? (c : Catalog) (t : TypeExpr) : Option TypeExpr :=
  (c.find? t.name).bind fun e => (e.select t.args).map Prod.fst

/-- A node is on the payload chain of a type: it is the type, or on the chain of its payload. -/
inductive Passes (c : Catalog) : TypeExpr → TypeExpr → Prop where
  | here (t : TypeExpr) : Passes c t t
  | payload {t p n : TypeExpr} (next : c.payload? t = some p) (further : Passes c p n) : Passes c t n

theorem payload?_eq_some : c.payload? t = some p ↔ ∃ e k, c.find? t.name = some e ∧ e.select t.args = some (p, k) := by
  simp only [payload?, Option.bind_eq_some_iff, Option.map_eq_some_iff, Prod.exists]
  constructor
  · rintro ⟨e, he, q, k, hs, rfl⟩
    exact ⟨e, k, he, hs⟩
  · rintro ⟨e, k, he, hs⟩
    exact ⟨e, he, p, k, hs, rfl⟩

theorem mem_args_of_payload? (h : c.payload? t = some p) : p ∈ t.args := by
  obtain ⟨e, k, -, hs⟩ := payload?_eq_some.mp h
  exact List.mem_of_getElem? (Entry.select_eq_some hs).1

theorem sizeOf_of_payload? (h : c.payload? t = some p) : sizeOf p < sizeOf t := by
  have := List.sizeOf_lt_of_mem (mem_args_of_payload? h)
  obtain ⟨name, args⟩ := t
  simp only [TypeExpr.args] at this
  simp only [TypeExpr.node.sizeOf_spec]
  omega

/-- What holds of a type once it holds of its payload, if it has one, holds of every type. -/
theorem chain_induction (c : Catalog) {motive : TypeExpr → Prop}
    (node : ∀ t, (∀ p, c.payload? t = some p → motive p) → motive t) (t : TypeExpr) : motive t :=
  node t fun p _ => chain_induction c node p
termination_by sizeOf t
decreasing_by exact sizeOf_of_payload? ‹_›

theorem Passes.eq_or_next (h : c.Passes t n) (next : c.payload? t = some p) : n = t ∨ c.Passes p n := by
  cases h with
  | here => exact .inl rfl
  | payload next' further =>
    cases next.symm.trans next'
    exact .inr further

theorem Passes.eq_of_last (h : c.Passes t n) (last : c.payload? t = none) : n = t := by
  cases h with
  | here => rfl
  | payload next _ => cases last.symm.trans next

theorem Passes.trans (h : c.Passes t n) (h' : c.Passes n m) : c.Passes t m := by
  induction h with
  | here => exact h'
  | payload next _ ih => exact .payload next (ih h')

theorem Passes.sizeOf_le (h : c.Passes t n) : sizeOf n ≤ sizeOf t := by
  induction h with
  | here => exact Nat.le_refl _
  | payload next _ ih => exact Nat.le_trans ih (Nat.le_of_lt (sizeOf_of_payload? next))

theorem Passes.antisymm (h : c.Passes t n) (h' : c.Passes n t) : t = n := by
  cases h with
  | here => rfl
  | payload next further =>
    have below : sizeOf t ≤ sizeOf _ := (further.trans h').sizeOf_le
    exact absurd below (Nat.not_le.mpr (sizeOf_of_payload? next))

end Catalog

/-! ### One node -/

section
variable (catalog : Catalog) (t : TypeExpr)

/-- What classification does at a node: a name that is not known is plain, too few arguments are a defect, and
    otherwise the payload comes first, unless nested wrappers are left alone. -/
theorem classifyNode_cases :
    (catalog.find? t.name = none ∧ ∀ config, classifyNode catalog config t = .ok (.plain t)) ∨
    (∃ e, catalog.find? t.name = some e ∧ e.select t.args = none ∧
      ∀ config, classifyNode catalog config t = Planning.fail (.tooFewArguments t.name e.needed t.args.length)) ∨
    ∃ e p k, catalog.find? t.name = some e ∧ e.select t.args = some (p, k) ∧
      ∀ config, classifyNode catalog config t = if config.nestedCombinations then
        (classifyNode catalog config p).andThen (Classification.combineWith config t e (e.alone p k))
        else .ok (e.alone p k) := by
  obtain ⟨name, args⟩ := t
  simp only [TypeExpr.name, TypeExpr.args, classifyNode]
  cases he : catalog.find? name with
  | none => exact .inl ⟨rfl, fun _ => rfl⟩
  | some e =>
    cases hs : e.select args with
    | none => exact .inr (.inl ⟨e, rfl, hs, fun _ => by simp only [hs]⟩)
    | some x =>
      obtain ⟨p, k⟩ := x
      refine .inr (.inr ⟨e, p, k, rfl, hs, fun _ => ?_⟩)
      simp only [hs, classifyArg_eq (Entry.select_eq_some hs).1]

/-- How a wrapper and its classified payload come together: they merge, or the wrapper stands alone. Then a payload
    that is a combination itself is refused, or it is noticed and left opaque. -/
theorem Classification.combineWith_cases (e : Entry) (p : TypeExpr) (k : Option TypeExpr) (payload : Classification) :
    (∃ shape, Shape.combine e.shape payload.shape = some shape ∧
      ∀ config, combineWith config t e (e.alone p k) payload = .ok (merge e (e.alone p k) payload shape)) ∨
    (payload.shape.isCombination = false ∧
      ∀ config, combineWith config t e (e.alone p k) payload = .ok (e.alone p k)) ∨
    Shape.combine e.shape payload.shape = none ∧ payload.shape.isCombination = true ∧
      ∀ config, combineWith config t e (e.alone p k) payload =
        if config.strictNesting then Planning.fail (.nestedTooDeeply t)
        else (Logged.note config.logLevel (opaqueNotice t (e.alone p k))).andThen fun _ =>
          .ok { e.alone p k with isOpaque := true } := by
  unfold combineWith
  cases pair : Shape.combine e.shape payload.shape with
  | some shape => exact .inl ⟨shape, rfl, fun _ => rfl⟩
  | none =>
    cases combined : payload.shape.isCombination with
    | false => exact .inr (.inl ⟨rfl, fun _ => rfl⟩)
    | true => exact .inr (.inr ⟨rfl, rfl, fun _ => rfl⟩)

theorem outcome_classify (config : Config) :
    (classify catalog config t).outcome = (classifyNode catalog config t).outcome := by
  unfold classify Logged.andThen
  cases (classifyNode catalog config t).outcome <;> rfl

variable {catalog t} {config : Config} {e : Entry}

theorem classifyNode_of_unknown (hn : catalog.find? t.name = none) : classifyNode catalog config t = .ok (.plain t) := by
  rcases classifyNode_cases catalog t with ⟨-, eq⟩ | ⟨e, he, -⟩ | ⟨e, p, k, he, -⟩
  · exact eq config
  · cases hn.symm.trans he
  · cases hn.symm.trans he

theorem classifyNode_of_lacking (he : catalog.find? t.name = some e) (hs : e.select t.args = none) :
    classifyNode catalog config t = Planning.fail (.tooFewArguments t.name e.needed t.args.length) := by
  rcases classifyNode_cases catalog t with ⟨hn, -⟩ | ⟨e', he', -, eq⟩ | ⟨e', p, k, he', hs', -⟩
  · cases hn.symm.trans he
  · cases he'.symm.trans he
    exact eq config
  · cases he'.symm.trans he
    cases hs'.symm.trans hs

theorem classifyNode_of_selected {p : TypeExpr} {k : Option TypeExpr} (he : catalog.find? t.name = some e)
    (hs : e.select t.args = some (p, k)) : classifyNode catalog config t =
      if config.nestedCombinations then
        (classifyNode catalog config p).andThen (Classification.combineWith config t e (e.alone p k))
      else .ok (e.alone p k) := by
  rcases classifyNode_cases catalog t with ⟨hn, -⟩ | ⟨e', he', hs', -⟩ | ⟨e', p', k', he', hs', eq⟩
  · cases hn.symm.trans he
  · cases he'.symm.trans he
    cases hs'.symm.trans hs
  · cases he'.symm.trans he
    cases hs'.symm.trans hs
    exact eq config

theorem classifyNode_of_select {p : TypeExpr} {k : Option TypeExpr} (nested : config.nestedCombinations = true)
    (he : catalog.find? t.name = some e) (hs : e.select t.args = some (p, k)) :
    classifyNode catalog config t =
      (classifyNode catalog config p).andThen (Classification.combineWith config t e (e.alone p k)) := by
  rw [classifyNode_of_selected he hs, if_pos nested]

theorem classified_of_outcome {c : Classification} (he : catalog.find? t.name = some e)
    (h : (classify catalog config t).outcome = .ok c) : Classified catalog t e c := by
  by_cases nested : config.nestedCombinations = true
  · exact classified_of_classify nested he h
  · rw [outcome_classify] at h
    rcases classifyNode_cases catalog t with ⟨hn, -⟩ | ⟨e', -, -, eq⟩ | ⟨e', p, k, he', hs, eq⟩
    · cases hn.symm.trans he
    · rw [eq] at h
      cases h
    · cases he'.symm.trans he
      rw [eq, if_neg nested] at h
      cases h
      exact .single hs false

end
end Accessors
