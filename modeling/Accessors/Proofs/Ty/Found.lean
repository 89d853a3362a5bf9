import Accessors.Proofs.Ty.Lends
import Accessors.Proofs.Wrapper.Found

/-! # Reading and taking in one go

The step into a value reads through two wrappers that merge where it is, and takes through them by moving what the
outer one has into a variable of its own first. Both come to the same value, and what that value points to stays. -/

namespace Accessors

namespace Wrapper
variable {w v : Wrapper} {k : Shape} {u x : Value} {cells cells' : List Value} {c : Nat}

/-- Of two wrappers that merge one at most is a handle. -/
theorem inside_of_combine (h : Shape.combine w.shape v.shape = some k) :
    w.sharing = .none ∨ v.sharing = .none := by
  cases w <;> cases v <;> simp [Shape.combine, shape] at h <;>
    first
    | exact .inl rfl
    | exact .inr rfl

/-- What is inside owns no more than the whole. -/
theorem owners_found_le (hw : w.sharing = .none) (h : w.found cells x = some u) (c : Nat) :
    u.owners c ≤ x.owners c := by
  have content : x.content? = some u → u.owners c ≤ x.owners c := fun hc =>
    Value.owners_child_le (s := .inside) (by cases x <;> first | exact hc | cases hc)
  have item : x.list[0]? = some u → u.owners c ≤ x.owners c := fun hc =>
    Value.owners_child_le (s := .item 0) (by cases x <;> exact hc)
  cases w <;>
    first
    | exact content h
    | exact item h
    | (cases hw; done)
    | cases h

theorem reaches_of_found (h : w.found cells x = some u) (r : Store.Reaches cells u c) : Store.Reaches cells x c := by
  by_cases hw : w.sharing = .none
  · exact r.of_part (owners_found_le hw h)
  · rw [found_of_handle hw] at h
    obtain ⟨d, hd, rfl⟩ := Option.map_eq_some_iff.mp h
    cases hy : cells[d]? with
    | none =>
      rw [hy] at r
      exact absurd r (Store.not_reaches_of_no_handles Value.owners_moved)
    | some y =>
      rw [hy] at r
      exact (Store.Reaches.owned (Value.owners_pos_of_cell? hd)).through_cell hy r

/-- What is inside a value is the same in other cells, if all that the value points to is. -/
theorem found_congr (same : Store.SamePointee x cells cells') (length : cells'.length = cells.length) :
    w.found cells' x = w.found cells x := by
  by_cases hw : w.sharing = .none
  · exact found_eq_of_inside hw _
  · rw [found_of_handle hw, found_of_handle hw]
    refine Option.map_congr fun c hc => congrArg (fun y => Option.getD y Value.moved) ?_
    cases hy : cells[c]? with
    | none => exact List.getElem?_eq_none (length ▸ List.getElem?_eq_none_iff.mp hy)
    | some y => exact same c y (.owned (Value.owners_pos_of_cell? hc)) hy

end Wrapper

namespace Passage
variable {s : Store} {ws : List Wrapper} {p : Place} {v u : Value} {cells cells' : List Value} {c : Nat}

/-- The value behind some wrappers. -/
def found (cells : List Value) : List Wrapper → Value → Option Value
  | [], v => some v
  | w :: ws, v => (w.found cells v).bind (found cells ws)

theorem reaches_of_found (h : found cells ws v = some u) (r : Store.Reaches cells u c) : Store.Reaches cells v c := by
  induction ws generalizing v with
  | nil =>
    cases h
    exact r
  | cons w ws ih =>
    obtain ⟨m, hm, h⟩ := Option.bind_eq_some_iff.mp h
    exact Wrapper.reaches_of_found hm (ih h)

theorem found_congr (same : Store.SamePointee v cells cells') (length : cells'.length = cells.length) :
    found cells' ws v = found cells ws v := by
  induction ws generalizing v with
  | nil => rfl
  | cons w ws ih =>
    rw [found, found, Wrapper.found_congr same length]
    cases hm : w.found cells v with
    | none => rfl
    | some m => exact ih fun c x r => same c x (Wrapper.reaches_of_found hm r)

theorem map_value_read (s : Store) (ws : List Wrapper) (p : Place) :
    (read s ws p).map s.value = found s.cells ws (s.value p) := by
  induction ws generalizing p with
  | nil => rfl
  | cons w ws ih =>
    simp only [read, found, ← Wrapper.map_value_read]
    cases w.read s p with
    | none => rfl
    | some m => exact ih m

end Passage

namespace Ty
variable {t u : Ty} {w v : Wrapper} {s : Store} {p : Place} {i : Nat}

/-- The value that a declared type has inside. -/
def found (t : Ty) (cells : List Value) (v : Value) : Option Value := Passage.found cells t.passage v

/-- What is read depends on the value alone, and on the cells of its handles. -/
theorem map_value_read (t : Ty) (s : Store) (p : Place) : (t.read s p).map s.value = t.found s.cells (s.value p) := by
  rw [read_eq_passage, found, Passage.map_value_read]

theorem took_loose (w : Wrapper) (s : Store) (x : Value) : s.Took (takeLoose w s x) (w.found s.cells x) := by
  have took := Wrapper.took (s := (s.push x).1) (p := (s.push x).2) rfl w
  rw [s.value_push] at took
  exact ⟨took.found, took.pointees⟩

/-- What is inside a shared guarded value is not given away. -/
theorem not_sharedGuard_of_offered (h : t.capabilities.offered.contains .failableOwned = true) :
    t.traits.shape.sharedGuard = false := by
  rw [capabilities] at h
  generalize t.traits.shape = k at h
  generalize t.traits.sharing = m at h
  cases k <;> first | rfl | (cases m <;> cases h)

/-- What was taken out of a wrapper is handed to the wrapper inside, which takes its own value out of it. -/
def takeOn (v : Wrapper) (z : Store × Option Value) : Store × Option Value :=
  z.2.elim (z.1, none) (takeLoose v z.1)

/-- Of two wrappers that values are taken through, one after the other, one at most may be a handle. -/
theorem took_on {z : Store × Option Value} {x : Option Value} (outer : s.Took z x)
    (h : z.1.cells = s.cells ∨ v.sharing = .none) : s.Took (takeOn v z) (x.bind (v.found s.cells)) := by
  obtain ⟨s', m⟩ := z
  obtain ⟨rfl, kept⟩ := outer
  cases m with
  | none => exact ⟨rfl, fun u hu => nomatch hu⟩
  | some m =>
    have inner := took_loose v s' m
    rcases h with cells | hv
    · have cells : s'.cells = s.cells := cells
      rw [cells] at inner
      exact inner.of_cells cells
    · have same : v.found s'.cells m = v.found s.cells m := Wrapper.found_eq_of_inside hv _
      rw [Option.bind_some, ← same]
      refine ⟨inner.found, fun u hu => ?_⟩
      have part := Wrapper.owners_found_le hv hu
      exact ((kept m rfl).of_part part).trans (inner.pointees u hu)

theorem take_of_merged (h : (wrap w (wrap v u)).traits.merged = true) :
    (wrap w (wrap v u)).take s p = takeOn v (w.take s p) := by
  simp only [take, mergedPair?_of_merged h, takeOn]
  rcases w.take s p with ⟨s', m | m⟩ <;> rfl

/-- Taking comes to the value that is read, and leaves all that it points to. -/
theorem took (hp : p.base = .slot i) (reachable : t.traits.shape.sharedGuard = false) :
    s.Took (t.take s p) (t.found s.cells (s.value p)) := by
  cases t with
  | plain n =>
    refine ⟨rfl, fun u _ => ?_⟩
    have cells : (s.set p .moved).cells = s.cells := Store.cells_set_of_slot hp _
    rw [show ((plain n).take s p).1.cells = s.cells from cells]
    exact .refl _ _
  | wrap w t =>
    rcases layers w t with @⟨v, t, k, pair, -, whole⟩ | ⟨-, whole⟩
    · have merged : (wrap w (wrap v t)).traits.merged = true := congrArg Traits.merged whole
      have passage : (wrap w (wrap v t)).passage = [w, v] := by
        simp only [Ty.passage, mergedPair?_of_merged merged, reachable, Bool.false_eq_true, ↓reduceIte]
      have both := took_on (v := v) (Wrapper.took (s := s) hp w) <|
        (Wrapper.inside_of_combine pair).imp_left (Wrapper.cells_take_of_inside hp)
      rw [take_of_merged merged, found, passage]
      simpa only [Passage.found, Option.bind_fun_some] using both
    · have merged := mergedPair?_of_not_merged (congrArg Traits.merged whole)
      have passage : (wrap w t).passage = [w] := by
        simp only [Ty.passage, merged]
      have alone := Wrapper.took (s := s) hp w
      simpa only [take, merged, found, passage, Passage.found, Option.bind_fun_some] using alone

end Ty
end Accessors
