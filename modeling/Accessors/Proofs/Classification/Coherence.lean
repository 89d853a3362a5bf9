import Accessors.Plan.Constructor
import Accessors.Proofs.Classification.Described

/-! # What a classification tells

A catalog is coherent if each of its entries is that of one wrapper, which has a sharing mode exactly if it is
a shared handle and a key exactly if it is a mapping or a set. Under such a catalog a classification can be
traced back to the nodes of the type that it was made from: the type itself and, for a combination, its
payload. Only a payload that stands alone merges, so no more than two nodes ever come together, however deep
the type is nested. -/

namespace Accessors

/-! ### Shapes and their parts -/

/-- The shapes of containers that are asked for a key: mappings, and sets for an element. -/
def Shape.keyed : Shape → Bool
  | hashMapping | orderedMapping | hashSet | orderedSet => true
  | _ => false

/-- A position that is a key of a mapping or an element of a set. -/
def PositionKind.isKey : PositionKind → Bool
  | key | element => true
  | _ => false

namespace Shape
variable {a b k : Shape} {m : Sharing}

theorem involvesSharing_of_single (h : a.isCombination = false) :
    a.involvesSharing = true ↔ a = .sharedOwnership := by
  cases a <;> first | decide | cases h

theorem involvesSharing_of_combine (h : combine a b = some k) :
    k.involvesSharing = true ↔ a = .sharedOwnership ∨ b = .sharedOwnership := by
  cases a <;> cases b <;> simp [combine] at h <;> subst h <;> decide

theorem not_both_shared (h : combine a b = some k) (ha : a = .sharedOwnership) : b ≠ .sharedOwnership := by
  rintro rfl
  subst ha
  cases h

theorem isKey_of_single (h : a.isCombination = false) :
    (a.capabilities m).position.isKey = true ↔ a.keyed = true := by
  cases a <;> first | exact Iff.rfl | cases h

theorem isKey_of_combine (h : combine a b = some k) :
    (k.capabilities m).position.isKey = true ↔ a.keyed = true ∨ b.keyed = true := by
  cases a <;> cases b <;> simp [combine] at h <;> subst h <;> simp [capabilities, PositionKind.isKey, keyed]

theorem not_both_keyed (h : combine a b = some k) (ha : a.keyed = true) : b.keyed = false := by
  cases a <;> cases b <;> simp [combine] at h <;> simp_all [keyed]

end Shape

/-! ### Coherent catalogs -/

/-- An entry of one wrapper. -/
structure Entry.Coherent (e : Entry) : Prop where
  single : e.shape.isCombination = false
  wraps : e.shape ≠ .plain
  sharing : e.sharing ≠ .none ↔ e.shape = .sharedOwnership
  key : e.key.isSome = true ↔ e.shape.keyed = true

theorem Entry.coherent_iff (e : Entry) : e.Coherent ↔ e.shape.isCombination = false ∧ e.shape ≠ .plain ∧
    (e.sharing ≠ .none ↔ e.shape = .sharedOwnership) ∧ (e.key.isSome = true ↔ e.shape.keyed = true) :=
  ⟨fun h => ⟨h.single, h.wraps, h.sharing, h.key⟩, fun ⟨h, h', h'', h'''⟩ => ⟨h, h', h'', h'''⟩⟩

instance (e : Entry) : Decidable e.Coherent := decidable_of_iff _ e.coherent_iff.symm

namespace Catalog
variable {c d : Catalog}

/-- All entries that can be looked up are those of one wrapper each. -/
def Coherent (c : Catalog) : Prop := ∀ n e, c.find? n = some e → e.Coherent

/-- The catalog after some aliases, each a name and its target, unless one has a target that is not known. -/
def aliasAll (c : Catalog) (names : List (String × String)) : Except UnknownTarget Catalog :=
  names.foldlM (fun c n => c.aliasTo n.1 n.2) c

theorem coherent_of_entries (h : ∀ x ∈ c.entries, x.2.Coherent) : c.Coherent := by
  intro n e hf
  obtain ⟨_, _, hx, -⟩ := List.lookup_eq_some_iff.mp hf
  exact h (n, e) (hx ▸ List.mem_append_right _ (.head _))

theorem coherent_standard : standard.Coherent := coherent_of_entries (by decide)

theorem Coherent.aliasTo {n t : String} (h : c.Coherent) (hd : c.aliasTo n t = .ok d) : d.Coherent := by
  unfold Catalog.aliasTo at hd
  cases ht : c.find? t with
  | none => simp [ht] at hd
  | some e =>
    simp only [ht, Except.ok.injEq] at hd
    subst hd
    intro m f hf
    rw [find?_insert] at hf
    split at hf
    · cases hf
      exact h t e ht
    · exact h m f hf

theorem Coherent.aliasAll {names : List (String × String)} (h : c.Coherent) (hd : c.aliasAll names = .ok d) :
    d.Coherent := by
  induction names generalizing c with
  | nil =>
    cases hd
    exact h
  | cons n names ih =>
    unfold Catalog.aliasAll at hd
    rw [List.foldlM_cons] at hd
    cases hn : c.aliasTo n.1 n.2 with
    | error u => rw [hn] at hd; cases hd
    | ok c' =>
      rw [hn] at hd
      exact ih (h.aliasTo hn) hd

end Catalog

/-! ### What is put together -/

/-- What an entry selects is the argument at its payload position, and that at its key position if it has one. -/
theorem Entry.select_eq_some {e : Entry} {args : List TypeExpr} {p : TypeExpr} {k : Option TypeExpr}
    (h : e.select args = some (p, k)) :
    args[e.payload]? = some p ∧ k.isSome = e.key.isSome ∧ ∀ i, e.key = some i → args[i]? = k := by
  unfold Entry.select at h
  split at h
  · rename_i hp hk
    cases h
    exact ⟨hp, by rw [hk]; rfl, fun i hi => by rw [hk] at hi; cases hi⟩
  · rename_i hp hk
    obtain ⟨t, ht, hpk⟩ := Option.map_eq_some_iff.mp h
    cases hpk
    refine ⟨hp, by rw [hk]; rfl, fun i hi => ?_⟩
    rw [hk] at hi
    cases hi
    exact ht
  · cases h

/-- How a classification of a wrapper is made: from the entry of the wrapper, or from that and the entry of its
    payload. -/
inductive Classified (catalog : Catalog) (t : TypeExpr) (e : Entry) : Classification → Prop where
  /-- The wrapper stands alone. -/
  | single {p : TypeExpr} {k : Option TypeExpr} (selected : e.select t.args = some (p, k)) (isOpaque : Bool) :
      Classified catalog t e { e.alone p k with isOpaque }
  /-- The wrapper merges with its payload. -/
  | merged {p q : TypeExpr} {k l : Option TypeExpr} {f : Entry} {shape : Shape}
      (selected : e.select t.args = some (p, k)) (payload : catalog.find? p.name = some f)
      (next : f.select p.args = some (q, l)) (pair : Shape.combine e.shape f.shape = some shape) :
      Classified catalog t e (.merge e (e.alone p k) (f.alone q l) shape)

section
variable {catalog : Catalog} {config : Config} {t : TypeExpr} {e : Entry} {c : Classification}

theorem classifyArg_eq {args : List TypeExpr} {i : Nat} {p : TypeExpr} (h : args[i]? = some p) :
    classifyArg catalog config args i = classifyNode catalog config p := by
  induction args generalizing i with
  | nil => simp at h
  | cons a args ih =>
    cases i with
    | zero =>
      cases h
      rw [classifyArg]
    | succ i => exact ih h

/-- A wrapper is classified from its entry and the classification of its payload. -/
theorem outcome_classifyNode_eq_ok (nested : config.nestedCombinations = true) (he : catalog.find? t.name = some e)
    (h : (classifyNode catalog config t).outcome = .ok c) : ∃ p k payload,
      e.select t.args = some (p, k) ∧ (classifyNode catalog config p).outcome = .ok payload ∧
        (Classification.combineWith config t e (e.alone p k) payload).outcome = .ok c := by
  obtain ⟨name, args⟩ := t
  simp only [TypeExpr.name] at he
  simp only [classifyNode, he, nested, ↓reduceIte] at h
  cases hs : e.select args with
  | none => simp [hs, Planning.fail, Logged.fail] at h
  | some x =>
    obtain ⟨p, k⟩ := x
    simp only [hs, classifyArg_eq (Entry.select_eq_some hs).1] at h
    obtain ⟨payload, hp, hc⟩ := Logged.outcome_andThen_eq_ok.mp h
    exact ⟨p, k, payload, hs, hp, hc⟩

/-- The payload merges, or else the wrapper stands alone. -/
theorem outcome_combineWith_eq_ok {own payload : Classification}
    (h : (Classification.combineWith config t e own payload).outcome = .ok c) :
    (∃ shape, Shape.combine e.shape payload.shape = some shape ∧ c = .merge e own payload shape) ∨
      Shape.combine e.shape payload.shape = none ∧ ∃ isOpaque, c = { own with isOpaque } := by
  unfold Classification.combineWith at h
  split at h
  · rename_i shape pair
    cases h
    exact .inl ⟨shape, pair, rfl⟩
  · rename_i pair
    refine .inr ⟨pair, ?_⟩
    split at h
    · split at h
      · cases h
      · cases h
        exact ⟨true, rfl⟩
    · cases h
      exact ⟨_, rfl⟩

/-- A classification that can merge is that of a wrapper that stands alone. -/
theorem eq_alone_of_classifyNode (nested : config.nestedCombinations = true)
    (h : (classifyNode catalog config t).outcome = .ok c) (single : c.shape.isCombination = false)
    (wraps : c.shape ≠ .plain) : ∃ f p k isOpaque, catalog.find? t.name = some f ∧ f.select t.args = some (p, k) ∧
      c = { f.alone p k with isOpaque } := by
  cases hf : catalog.find? t.name with
  | none =>
    obtain ⟨name, args⟩ := t
    simp only [TypeExpr.name] at hf
    simp only [classifyNode, hf, Logged.ok, Except.ok.injEq] at h
    subst h
    exact absurd rfl wraps
  | some f =>
    obtain ⟨p, k, payload, hs, -, hc⟩ := outcome_classifyNode_eq_ok nested hf h
    rcases outcome_combineWith_eq_ok hc with ⟨shape, pair, rfl⟩ | ⟨-, o, rfl⟩
    · have combined := Shape.isCombination_of_combine pair
      exact absurd (combined.symm.trans single) Bool.noConfusion
    · exact ⟨f, p, k, o, rfl, hs, rfl⟩

theorem classified_of_classifyNode (nested : config.nestedCombinations = true) (he : catalog.find? t.name = some e)
    (h : (classifyNode catalog config t).outcome = .ok c) : Classified catalog t e c := by
  obtain ⟨p, k, payload, hs, hp, hc⟩ := outcome_classifyNode_eq_ok nested he h
  rcases outcome_combineWith_eq_ok hc with ⟨shape, pair, rfl⟩ | ⟨-, o, rfl⟩
  · have wraps : payload.shape ≠ .plain := fun plain => by
      rw [plain, Shape.combine_plain] at pair
      cases pair
    obtain ⟨f, q, l, o, hf, hs', rfl⟩ :=
      eq_alone_of_classifyNode nested hp (Shape.not_isCombination_of_combine pair) wraps
    exact .merged hs hf hs' pair
  · exact .single hs o

theorem classified_of_classify (nested : config.nestedCombinations = true) (he : catalog.find? t.name = some e)
    (h : (classify catalog config t).outcome = .ok c) : Classified catalog t e c := by
  obtain ⟨c', hc, h⟩ := Logged.outcome_andThen_eq_ok.mp h
  rw [Logged.outcome_note_andThen] at h
  cases h
  exact classified_of_classifyNode nested he hc

end

/-! ### Coherent classifications -/

/-- The nodes that a classification of a type speaks of, each with its entry: the type, and the payload of a
    combination. -/
inductive Classification.Node (catalog : Catalog) (t : TypeExpr) (c : Classification) : TypeExpr → Entry → Prop where
  | outer {e : Entry} (entry : catalog.find? t.name = some e) : Node catalog t c t e
  | payload {e f : Entry} {p : TypeExpr} (combined : c.shape.isCombination = true)
      (outer : catalog.find? t.name = some e) (payload : t.args[e.payload]? = some p)
      (entry : catalog.find? p.name = some f) : Node catalog t c p f

/-- What a classification of a type with an entry tells of its nodes. -/
structure Classification.Coherent (catalog : Catalog) (t : TypeExpr) (e : Entry) (c : Classification) : Prop where
  /-- A combination is one of the wrapper and its payload, and the payload's payload is inside. -/
  combination : c.shape.isCombination = true → c.shape.outer = e.shape ∧ c.isOpaque = false ∧
    ∃ p f, t.args[e.payload]? = some p ∧ catalog.find? p.name = some f ∧ c.shape.inner = some f.shape ∧
      p.args[f.payload]? = some c.inner
  /-- Any other shape is the wrapper's own, and its payload is inside. -/
  single : c.shape.isCombination = false → c.shape = e.shape ∧ t.args[e.payload]? = some c.inner
  sharing_iff : c.sharing ≠ .none ↔ c.shape.involvesSharing = true
  /-- There is a handle among the nodes exactly if the shape has one. -/
  handle_iff : c.shape.involvesSharing = true ↔ ∃ n f, c.Node catalog t n f ∧ f.shape = .sharedOwnership
  /-- The sharing mode is that of the handle. -/
  handle : ∀ n f, c.Node catalog t n f → f.shape = .sharedOwnership → c.sharing = f.sharing
  key_iff : c.key.isSome = true ↔ c.capabilities.position.isKey = true
  /-- There is a container with keys among the nodes exactly if positions are keys. -/
  keyed_iff : c.capabilities.position.isKey = true ↔ ∃ n f, c.Node catalog t n f ∧ f.shape.keyed = true
  /-- The key is the argument at the key position of the container. -/
  keyed : ∀ n f, c.Node catalog t n f → f.shape.keyed = true → ∃ i, f.key = some i ∧ n.args[i]? = c.key

namespace Classification
variable {catalog : Catalog} {config : Config} {t : TypeExpr} {e : Entry} {c : Classification}

theorem node_iff_of_single (he : catalog.find? t.name = some e) (single : c.shape.isCombination = false)
    {n : TypeExpr} {f : Entry} : c.Node catalog t n f ↔ n = t ∧ f = e := by
  constructor
  · intro node
    cases node with
    | outer entry => exact ⟨rfl, Option.some.inj (entry.symm.trans he)⟩
    | payload combined => exact absurd (combined.symm.trans single) Bool.noConfusion
  · rintro ⟨rfl, rfl⟩
    exact .outer he

theorem node_iff_of_combination (he : catalog.find? t.name = some e) (combined : c.shape.isCombination = true)
    {p : TypeExpr} {g : Entry} (hp : t.args[e.payload]? = some p) (hg : catalog.find? p.name = some g)
    {n : TypeExpr} {f : Entry} : c.Node catalog t n f ↔ n = t ∧ f = e ∨ n = p ∧ f = g := by
  constructor
  · intro node
    cases node with
    | outer entry => exact .inl ⟨rfl, Option.some.inj (entry.symm.trans he)⟩
    | payload _ outer payload entry =>
      cases Option.some.inj (outer.symm.trans he)
      cases Option.some.inj (payload.symm.trans hp)
      exact .inr ⟨rfl, Option.some.inj (entry.symm.trans hg)⟩
  · rintro (⟨rfl, rfl⟩ | ⟨rfl, rfl⟩)
    · exact .outer he
    · exact .payload combined he hp hg

theorem exists_node_of_single (he : catalog.find? t.name = some e) (single : c.shape.isCombination = false)
    (P : Entry → Prop) : (∃ n f, c.Node catalog t n f ∧ P f) ↔ P e := by
  simp only [node_iff_of_single he single]
  exact ⟨fun ⟨_, _, ⟨_, hf⟩, h⟩ => hf ▸ h, fun h => ⟨t, e, ⟨rfl, rfl⟩, h⟩⟩

theorem exists_node_of_combination (he : catalog.find? t.name = some e) (combined : c.shape.isCombination = true)
    {p : TypeExpr} {g : Entry} (hp : t.args[e.payload]? = some p) (hg : catalog.find? p.name = some g)
    (P : Entry → Prop) : (∃ n f, c.Node catalog t n f ∧ P f) ↔ P e ∨ P g := by
  simp only [node_iff_of_combination he combined hp hg]
  constructor
  · rintro ⟨n, f, ⟨-, rfl⟩ | ⟨-, rfl⟩, h⟩
    · exact .inl h
    · exact .inr h
  · rintro (h | h)
    · exact ⟨t, e, .inl ⟨rfl, rfl⟩, h⟩
    · exact ⟨p, g, .inr ⟨rfl, rfl⟩, h⟩

/-- The key that an entry selects is the argument at its key position. -/
theorem key_of_selected {args : List TypeExpr} {p : TypeExpr} {k : Option TypeExpr} (coherent : e.Coherent)
    (hs : e.select args = some (p, k)) (keyed : e.shape.keyed = true) : ∃ i, e.key = some i ∧ args[i]? = k := by
  obtain ⟨i, hi⟩ := Option.isSome_iff_exists.mp (coherent.key.mpr keyed)
  exact ⟨i, hi, (Entry.select_eq_some hs).2.2 i hi⟩

theorem isSome_of_selected {args : List TypeExpr} {p : TypeExpr} {k : Option TypeExpr} (coherent : e.Coherent)
    (hs : e.select args = some (p, k)) : k.isSome = true ↔ e.shape.keyed = true := by
  rw [(Entry.select_eq_some hs).2.1, coherent.key]

theorem coherent_single (he : catalog.find? t.name = some e) (coherent : e.Coherent) {p : TypeExpr}
    {k : Option TypeExpr} (hs : e.select t.args = some (p, k)) (isOpaque : Bool) :
    Coherent catalog t e { e.alone p k with isOpaque } := by
  have single : ({ e.alone p k with isOpaque } : Classification).shape.isCombination = false := coherent.single
  have nodes := exists_node_of_single he single
  constructor
  case combination => exact fun combined => absurd (combined.symm.trans single) Bool.noConfusion
  case single => exact fun _ => ⟨rfl, (Entry.select_eq_some hs).1⟩
  case sharing_iff => exact coherent.sharing.trans (Shape.involvesSharing_of_single coherent.single).symm
  case handle_iff =>
    exact (Shape.involvesSharing_of_single coherent.single).trans (nodes (·.shape = .sharedOwnership)).symm
  case handle =>
    intro n f node _
    rw [((node_iff_of_single he single).mp node).2]
    rfl
  case key_iff => exact (isSome_of_selected coherent hs).trans (Shape.isKey_of_single coherent.single).symm
  case keyed_iff => exact (Shape.isKey_of_single coherent.single).trans (nodes (·.shape.keyed = true)).symm
  case keyed =>
    intro n f node keyed
    obtain ⟨rfl, rfl⟩ := (node_iff_of_single he single).mp node
    exact key_of_selected coherent hs keyed

/-- The sharing mode and the key of a combination are those of the one of its nodes that has any. -/
theorem coherent_merged (he : catalog.find? t.name = some e) (coherent : e.Coherent) {p q : TypeExpr}
    {k l : Option TypeExpr} {f : Entry} {shape : Shape} (hs : e.select t.args = some (p, k))
    (hf : catalog.find? p.name = some f) (coherent' : f.Coherent) (hs' : f.select p.args = some (q, l))
    (pair : Shape.combine e.shape f.shape = some shape) :
    Coherent catalog t e (merge e (e.alone p k) (f.alone q l) shape) := by
  have combined : (merge e (e.alone p k) (f.alone q l) shape).shape.isCombination = true :=
    Shape.isCombination_of_combine pair
  have hp : t.args[e.payload]? = some p := (Entry.select_eq_some hs).1
  have nodes := exists_node_of_combination he combined hp hf
  have outer_handle : e.shape.involvesSharing = true ↔ e.shape = .sharedOwnership :=
    Shape.involvesSharing_of_single coherent.single
  have sharing : (merge e (e.alone p k) (f.alone q l) shape).sharing =
      if e.shape.involvesSharing = true then e.sharing else f.sharing := rfl
  have key : (merge e (e.alone p k) (f.alone q l) shape).key = k.or l := Option.orElse_eq_or
  constructor
  case combination =>
    intro _
    obtain ⟨outer, inner⟩ := Shape.combine_eq_some pair
    exact ⟨outer, rfl, p, f, hp, hf, inner, (Entry.select_eq_some hs').1⟩
  case single => exact fun single => absurd (combined.symm.trans single) Bool.noConfusion
  case sharing_iff =>
    rw [sharing]
    refine Iff.trans ?_ (Shape.involvesSharing_of_combine pair).symm
    by_cases hh : e.shape.involvesSharing = true
    · have outer := outer_handle.mp hh
      rw [if_pos hh, coherent.sharing]
      simp [outer]
    · have outer := mt outer_handle.mpr hh
      rw [if_neg hh, coherent'.sharing]
      simp [outer]
  case handle_iff => exact (Shape.involvesSharing_of_combine pair).trans (nodes (·.shape = .sharedOwnership)).symm
  case handle =>
    intro n g node handle
    rcases (node_iff_of_combination he combined hp hf).mp node with ⟨-, rfl⟩ | ⟨-, rfl⟩
    · rw [sharing, if_pos (outer_handle.mpr handle)]
    · rw [sharing, if_neg fun hh => Shape.not_both_shared pair (outer_handle.mp hh) handle]
  case key_iff =>
    rw [key, Option.isSome_or, Bool.or_eq_true, isSome_of_selected coherent hs, isSome_of_selected coherent' hs']
    exact (Shape.isKey_of_combine pair).symm
  case keyed_iff => exact (Shape.isKey_of_combine pair).trans (nodes (·.shape.keyed = true)).symm
  case keyed =>
    intro n g node keyed
    rw [key]
    rcases (node_iff_of_combination he combined hp hf).mp node with ⟨rfl, rfl⟩ | ⟨rfl, rfl⟩
    · obtain ⟨i, hi, harg⟩ := key_of_selected coherent hs keyed
      obtain ⟨x, rfl⟩ := Option.isSome_iff_exists.mp ((isSome_of_selected coherent hs).mpr keyed)
      exact ⟨i, hi, harg⟩
    · -- Only one of two nodes that merge has keys, so the wrapper's own key is absent.
      obtain ⟨i, hi, harg⟩ := key_of_selected coherent' hs' keyed
      cases k with
      | none => exact ⟨i, hi, harg⟩
      | some x =>
        have outer := (isSome_of_selected coherent hs).mp rfl
        exact absurd (keyed.symm.trans (Shape.not_both_keyed pair outer)) Bool.noConfusion

/-- Classifications are coherent under every coherent catalog, among them the standard one and whatever it
    becomes by aliases. -/
theorem classify_coherent :
    (∀ names catalog, Catalog.standard.aliasAll names = .ok catalog → catalog.Coherent) ∧
    ∀ (catalog : Catalog) (config : Config) (t : TypeExpr) (e : Entry) (c : Classification), catalog.Coherent →
      config.nestedCombinations = true → catalog.find? t.name = some e →
      (classify catalog config t).outcome = .ok c → c.Coherent catalog t e := by
  refine ⟨fun names catalog h => Catalog.coherent_standard.aliasAll h, ?_⟩
  intro catalog config t e c coherent nested he h
  cases classified_of_classify nested he h with
  | single hs isOpaque => exact coherent_single he (coherent _ _ he) hs isOpaque
  | merged hs hf hs' pair => exact coherent_merged he (coherent _ _ he) hs hf (coherent _ _ hf) hs' pair

/-- A table under another name inside an optional. Its own payload does not merge and is opaque, which does not
    show in the combination. -/
theorem classify_coherent_table :
    Catalog.standard.aliasAll [("w::Table", "std::unordered_map")] =
      .ok (Catalog.standard.insert "w::Table" { shape := .hashMapping, payload := 1, key := some 0 }) ∧
    (classify (Catalog.standard.insert "w::Table" { shape := .hashMapping, payload := 1, key := some 0 }) {}
      (.node "std::optional" [.node "w::Table" [.atom "std::string",
        .node "std::vector" [.node "std::optional" [.atom "int"]]]])).outcome =
      .ok ⟨.optionalOfHashMapping, .none, .node "std::vector" [.node "std::optional" [.atom "int"]],
        some (.atom "std::string"), false⟩ ∧
    Coherent (Catalog.standard.insert "w::Table" { shape := .hashMapping, payload := 1, key := some 0 })
      (.node "std::optional" [.node "w::Table" [.atom "std::string",
        .node "std::vector" [.node "std::optional" [.atom "int"]]]]) { shape := .optional }
      ⟨.optionalOfHashMapping, .none, .node "std::vector" [.node "std::optional" [.atom "int"]],
        some (.atom "std::string"), false⟩ :=
  ⟨rfl, rfl, classify_coherent.2 _ {} _ _ _ (classify_coherent.1 [("w::Table", "std::unordered_map")] _ rfl) rfl
    rfl rfl⟩

end Classification
end Accessors
