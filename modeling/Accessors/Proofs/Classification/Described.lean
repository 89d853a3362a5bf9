import Accessors.Proofs.Ty.Layers
import Accessors.Ty.Classified

/-! # The classification of a declared type

A declared type is classified twice: once by its traits, which follow its wrappers, and once by its
written form, where the catalog says which names are wrappers and which of their arguments are payloads.
Both recursions go down the same chain of payloads, one wrapper at a time, and agree on what they find
there, as long as the catalog does not take the plain type at the core for a wrapper. -/

namespace Accessors

namespace Logged
variable {ε α β : Type}

theorem outcome_andThen {x : Logged ε α} {a : α} (h : x.outcome = .ok a) (f : α → Logged ε β) :
    (x.andThen f).outcome = (f a).outcome := by
  simp only [andThen, h]

theorem outcome_andThen_eq_ok {x : Logged ε α} {f : α → Logged ε β} {b : β} :
    (x.andThen f).outcome = .ok b ↔ ∃ a, x.outcome = .ok a ∧ (f a).outcome = .ok b := by
  unfold andThen
  cases x.outcome <;> simp

theorem outcome_note_andThen (l : Level) (r : Record) (f : Unit → Logged ε β) :
    ((note l r).andThen f).outcome = (f ()).outcome :=
  outcome_andThen rfl f

end Logged

/-! ### Wrappers in the catalog -/

namespace Wrapper

/-- The entry under which the catalog knows a wrapper. -/
def entry (w : Wrapper) : Entry :=
  match w with
  | hashMap _ | orderedMap _ => { shape := w.shape, payload := 1, key := some 0 }
  | hashSet | orderedSet => { shape := w.shape, key := some 0 }
  | _ => { shape := w.shape, sharing := w.sharing }

/-- The key of a mapping; the key of a set is its element. -/
def key? (w : Wrapper) (payload : TypeExpr) : Option TypeExpr :=
  match w with
  | hashMap k | orderedMap k => some k
  | hashSet | orderedSet => some payload
  | _ => none

theorem find?_name (w : Wrapper) : Catalog.standard.find? w.name = some w.entry := by
  cases w <;> rfl

@[simp] theorem entry_shape (w : Wrapper) : w.entry.shape = w.shape := by
  cases w <;> rfl

@[simp] theorem entry_sharing (w : Wrapper) : w.entry.sharing = w.sharing := by
  cases w <;> rfl

theorem select_arguments (w : Wrapper) (p : TypeExpr) :
    w.entry.select (w.arguments p) = some (p, w.key? p) := by
  cases w <;> rfl

theorem classifyArg_arguments (w : Wrapper) (c : Catalog) (config : Config) (p : TypeExpr) :
    classifyArg c config (w.arguments p) w.entry.payload = classifyNode c config p := by
  cases w <;> simp [arguments, entry, classifyArg]

end Wrapper

/-! ### Both classifications side by side -/

namespace Ty
variable {w : Wrapper} {t : Ty}

/-- The key that goes with a type: its own, or else that of the payload it merges with. -/
def key? : Ty → Option TypeExpr
  | plain _ => none
  | wrap w t => w.key? t.describe <|> if (wrap w t).traits.merged then t.key? else none

/-- The traits of a type as a classification. -/
def classification (t : Ty) : Classification :=
  ⟨t.traits.shape, t.traits.sharing, t.traits.inner.describe, t.key?, t.traits.isOpaque⟩

theorem outcome_combineWith (w : Wrapper) (t : Ty) (whole : TypeExpr) :
    (Classification.combineWith {} whole w.entry (w.entry.alone t.describe (w.key? t.describe))
      t.classification).outcome = .ok (wrap w t).classification := by
  unfold Classification.combineWith
  rw [w.entry_shape]
  cases hc : Shape.combine w.shape t.traits.shape with
  | some k =>
    have hm := traits_of_combine hc
    simp only [classification, hc, hm, Logged.ok, Classification.merge, Entry.alone, Wrapper.entry_shape,
      Wrapper.entry_sharing, key?, Wrapper.involvesSharing_shape, ↓reduceIte]
    cases hs : w.sharing <;> rfl
  | none =>
    have hm := traits_of_combine_eq_none hc
    simp only [classification, hc, hm, Entry.alone, Wrapper.entry_shape, Wrapper.entry_sharing, key?,
      Bool.false_eq_true, ↓reduceIte, Option.orElse_eq_orElse, Option.orElse_eq_or, Option.or_none]
    split
    · rename_i nested
      rw [nested]
      rfl
    · rename_i nested
      rw [Bool.eq_false_iff.mpr nested]
      rfl

/-- The written form of a type is classified as its traits say: never with a defect, whatever the depth
    and the further arguments of the wrappers. -/
theorem outcome_classifyNode_describe (h : Catalog.standard.find? t.core = none) :
    (classifyNode .standard {} t.describe).outcome = .ok t.classification := by
  induction t with
  | plain n =>
    have hn : Catalog.standard.find? n = none := h
    simp [describe, TypeExpr.atom, classifyNode, hn, Logged.ok, classification, traits,
      Classification.plain, key?]
  | wrap w t ih =>
    have hnode : classifyNode .standard {} (wrap w t).describe =
        (classifyNode .standard {} t.describe).andThen
          (Classification.combineWith {} (wrap w t).describe w.entry
            (w.entry.alone t.describe (w.key? t.describe))) := by
      simp only [describe, classifyNode, w.find?_name, w.select_arguments, w.classifyArg_arguments,
        ↓reduceIte]
    rw [hnode, Logged.outcome_andThen (ih h)]
    exact outcome_combineWith w t _

theorem outcome_classify (h : Catalog.standard.find? t.core = none) :
    t.classify.outcome = .ok t.classification := by
  unfold classify Accessors.classify
  rw [Logged.outcome_andThen (outcome_classifyNode_describe h), Logged.outcome_note_andThen]
  rfl

/-- The two classifications of a declared type agree, whatever its wrappers are and however deep they are
    nested. -/
theorem classify_agrees (t : Ty) (h : Catalog.standard.find? t.core = none) :
    ∃ c, t.classify.outcome = .ok c ∧ t.Agrees c :=
  ⟨t.classification, outcome_classify h, rfl, rfl, rfl, rfl⟩

/-- A combination two wrappers down, which does not merge any further and is opaque. -/
theorem classify_agrees_opaque_map :
    Catalog.standard.find? (wrap (.orderedMap (.atom "int")) (wrap .optional
      (wrap (.hashMap (.atom "std::string")) (plain "w::Point")))).core = none ∧
    ∃ c, (wrap (.orderedMap (.atom "int")) (wrap .optional
        (wrap (.hashMap (.atom "std::string")) (plain "w::Point")))).classify.outcome = .ok c ∧
      (wrap (.orderedMap (.atom "int")) (wrap .optional
        (wrap (.hashMap (.atom "std::string")) (plain "w::Point")))).Agrees c :=
  ⟨by decide, classify_agrees _ (by decide)⟩

end Ty
end Accessors
