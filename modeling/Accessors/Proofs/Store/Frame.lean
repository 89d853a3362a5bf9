import Accessors.Proofs.Store.Steps
import Accessors.Proofs.Value.Outline

/-! # What a change of one place leaves

A place covers what is at it or further in. Putting a value at a place leaves the outline of every place that
it does not cover, and leaves every place that is neither covered nor above. The single steps of a store read
outlines only, so they lead to the same places in stores that look alike. -/

namespace Accessors

namespace Place
variable {p q r : Place}

/-- `r` is at `q` or further in. -/
def Covers (q r : Place) : Prop := r.base = q.base ∧ q.path <+: r.path

theorem covers_refl (p : Place) : p.Covers p := ⟨rfl, List.prefix_refl _⟩

theorem covers_step (p : Place) (a : Value.Step) : p.Covers (p.step a) := ⟨rfl, List.prefix_append _ _⟩

theorem Covers.trans (h : p.Covers q) (h' : q.Covers r) : p.Covers r :=
  ⟨h'.1.trans h.1, h.2.trans h'.2⟩

theorem Covers.eq_of_length (h : p.Covers r) (h' : q.Covers r) (length : p.path.length = q.path.length) : p = q := by
  obtain ⟨b, ss⟩ := p
  obtain ⟨b', ss'⟩ := q
  obtain ⟨hb, hp⟩ := h
  obtain ⟨hb', hp'⟩ := h'
  cases hb.symm.trans hb'
  cases (List.prefix_of_prefix_length_le hp hp' (Nat.le_of_eq length)).eq_of_length length
  rfl

theorem not_covers_of_base (h : r.base ≠ q.base) : ¬q.Covers r := fun hc => h hc.1

theorem not_covers_of_length (h : r.path.length < q.path.length) : ¬q.Covers r := fun hc =>
  Nat.not_le_of_lt h hc.2.length_le

end Place

namespace Store
variable {s t : Store} {p q r : Place} {x : Value} {c i : Nat}

/-- Two stores have the same outline at a place. -/
def Alike (s t : Store) (p : Place) : Prop := (s.get? p).map Value.outline = (t.get? p).map Value.outline

theorem Alike.symm (h : Alike s t p) : Alike t s p := Eq.symm h

theorem Alike.of_get?_eq (h : s.get? p = t.get? p) : Alike s t p := congrArg (Option.map Value.outline) h

/-! ### Putting a value -/

theorem root?_setRoot_ne {b b' : Base} (v : Value) (h : b ≠ b') : (s.setRoot b v).root? b' = s.root? b' := by
  cases b <;> cases b' <;> simp only [setRoot, root?] <;>
    exact List.getElem?_set_ne fun he => h (congrArg _ he)

theorem length_slots_set (s : Store) (q : Place) (x : Value) : (s.set q x).slots.length = s.slots.length := by
  simp only [set]
  cases s.root? q.base with
  | none => rfl
  | some w =>
    obtain ⟨b, ss⟩ := q
    cases b with
    | slot i => exact List.length_set
    | cell c => rfl

theorem get?_set_of_base (h : r.base ≠ q.base) : (s.set q x).get? r = s.get? r := by
  simp only [set]
  cases s.root? q.base with
  | none => rfl
  | some w => simp only [get?, root?_setRoot_ne _ (Ne.symm h)]

/-- Putting a value at a place leaves the outline of what it does not cover. -/
theorem alike_set (h : ¬q.Covers r) : Alike s (s.set q x) r := by
  by_cases hb : r.base = q.base
  · simp only [Alike, set]
    cases hr : s.root? q.base with
    | none => rfl
    | some w =>
      simp only [get?, hb, hr, root?_setRoot hr, Option.bind_some]
      exact (Value.outline_get?_set fun hp => h ⟨hb, hp⟩).symm
  · exact .of_get?_eq (get?_set_of_base hb).symm

/-- Putting a value at a place leaves what is neither covered by it nor above it. -/
theorem get?_set_of_apart (h : ¬q.Covers r) (h' : ¬r.Covers q) : (s.set q x).get? r = s.get? r := by
  by_cases hb : r.base = q.base
  · simp only [set]
    cases hr : s.root? q.base with
    | none => rfl
    | some w =>
      simp only [get?, hb, hr, root?_setRoot hr, Option.bind_some]
      exact Value.get?_set_of_apart (fun hp => h ⟨hb, hp⟩) fun hp => h' ⟨hb.symm, hp⟩
  · exact get?_set_of_base hb

/-! ### A further variable -/

theorem get?_push_of_base (h : p.base ≠ .slot s.slots.length) : (s.push x).1.get? p = s.get? p := by
  have hroot : (s.push x).1.root? p.base = s.root? p.base := by
    generalize p.base = b at h
    cases b with
    | cell c => rfl
    | slot i =>
      have hne : i ≠ s.slots.length := fun he => h (congrArg _ he)
      simp only [push, root?]
      by_cases hi : i < s.slots.length
      · exact List.getElem?_append_left hi
      · have hle : s.slots.length + 1 ≤ i := by omega
        rw [List.getElem?_eq_none (by simpa using hle), List.getElem?_eq_none (by omega)]
  simp only [get?, hroot]

theorem alike_push (h : p.base ≠ .slot s.slots.length) : Alike s (s.push x).1 p :=
  .of_get?_eq (get?_push_of_base h).symm

/-- A value that is put elsewhere while a further variable is in use is there when it has gone again. -/
theorem pop_set_push (y : Value) (h : q.base ≠ .slot s.slots.length) :
    ((s.push x).1.set q y).pop = s.set q y := by
  obtain ⟨b, ss⟩ := q
  cases b with
  | cell c =>
    simp only [set, push, root?, setRoot]
    cases s.cells[c]? with
    | none => simp [pop]
    | some w => simp [pop]
  | slot i =>
    have hne : i ≠ s.slots.length := fun he => h (congrArg _ he)
    simp only [set, push, root?, setRoot]
    by_cases hi : i < s.slots.length
    · rw [List.getElem?_append_left hi, List.getElem?_eq_getElem hi]
      simp [pop, List.set_append_left _ _ hi]
    · rw [List.getElem?_eq_none (by simp; omega), List.getElem?_eq_none (by omega)]
      simp [pop]

/-! ### Steps read outlines -/

theorem Alike.get? (h : Alike s t p) : s.get? p = none ∧ t.get? p = none ∨
    ∃ v w, s.get? p = some v ∧ t.get? p = some w ∧ v.outline = w.outline := by
  unfold Alike at h
  cases hs : s.get? p with
  | none =>
    rw [hs] at h
    exact .inl ⟨rfl, Option.map_eq_none_iff.mp h.symm⟩
  | some v =>
    rw [hs] at h
    obtain ⟨w, hw, ho⟩ := Option.map_eq_some_iff.mp h.symm
    exact .inr ⟨v, w, rfl, hw, ho.symm⟩

theorem inside?_congr (h : Alike s t p) : s.inside? p = t.inside? p := by
  rcases h.get? with ⟨hs, ht⟩ | ⟨v, w, hs, ht, ho⟩ <;> simp only [inside?, hs, ht]
  cases v <;> cases w <;> simp_all [Value.outline]

theorem handle?_congr (h : Alike s t p) : s.handle? p = t.handle? p := by
  rcases h.get? with ⟨hs, ht⟩ | ⟨v, w, hs, ht, ho⟩ <;> simp only [handle?, hs, ht]
  cases v <;> cases w <;> simp_all [Value.outline]

theorem length_items_congr (h : Alike s t p) : (s.items p).length = (t.items p).length := by
  rcases h.get? with ⟨hs, ht⟩ | ⟨v, w, hs, ht, ho⟩ <;> simp only [items, hs, ht]
  cases v <;> cases w <;> simp_all [Value.outline]

theorem item?_congr (h : Alike s t p) (k : Nat) : s.item? p k = t.item? p k := by
  simp only [item?, length_items_congr h]

theorem hasKey_congr {k v w : Value} (h : v.outline = w.outline) : hasKey k v = hasKey k w := by
  cases v <;> cases w <;> simp_all [Value.outline, hasKey]

theorem bound?_congr (h : ∀ i, Alike s t (p.item i)) (k : Value) : s.bound? p k = t.bound? p k := by
  have keys : (s.items p).map (hasKey k) = (t.items p).map (hasKey k) := by
    refine List.ext_getElem? fun i => ?_
    simp only [List.getElem?_map, getElem?_items]
    rcases (h i).get? with ⟨hs, ht⟩ | ⟨v, w, hs, ht, ho⟩
    · rw [hs, ht]
    · rw [hs, ht, Option.map_some, Option.map_some, hasKey_congr ho]
  have found : (s.items p).findIdx? (hasKey k) = (t.items p).findIdx? (hasKey k) := by
    have := congrArg (List.findIdx? id) keys
    rwa [List.findIdx?_map, List.findIdx?_map] at this
  rw [bound?_eq, bound?_eq, found]

end Store
end Accessors
