import Accessors.Proofs.Store.Frame
import Accessors.Proofs.Store.Exclusive

/-! # Single steps

What one step of a wrapper does: a step for writing leads where the step for reading does, unless it goes
through a handle whose pointee has other owners. Both lead further in or to the pointee of a handle, and both
read no more than the outlines on the way. -/

namespace Accessors

namespace Store
variable {s : Store} {p q : Place} {c i : Nat}

/-- Every handle owns a cell that there is. -/
def Closed (s : Store) : Prop :=
  ∀ b v c, s.root? b = some v → 0 < v.owners c → c < s.cells.length

end Store

namespace Wrapper
variable {w : Wrapper} {s t : Store} {p q : Place} {pos pos' : Position}

/-- The cells of the handles that a step goes through: of the wrapper itself, if it is one. -/
def passed (w : Wrapper) (s : Store) (p : Place) : List Nat :=
  if w.sharing = .none then [] else (s.handle? p).toList

theorem read_of_handle (hw : w.sharing ≠ .none) : w.read s p = (s.handle? p).map .cell := by
  cases w <;> first | rfl | exact absurd rfl hw

theorem write_of_handle (hw : w.sharing ≠ .none) :
    w.write s p = (s.handle? p).bind fun c => if s.owners c = 1 then some (.cell c) else none := by
  cases w <;> first | rfl | exact absurd rfl hw

theorem write_eq_read (hw : w.sharing = .none) (lends : w.lendsMut = true) : w.write s p = w.read s p := by
  cases w <;> first | rfl | (cases hw; done) | cases lends

/-- A step for writing leads where the one for reading does, if the handle it goes through is a sole owner. -/
theorem write_eq_some_iff (lends : w.lendsMut = true) :
    w.write s p = some q ↔ w.read s p = some q ∧ ∀ c ∈ w.passed s p, s.liveOwners c = 1 := by
  by_cases hw : w.sharing = .none
  · simp only [write_eq_read hw lends, passed, hw, ↓reduceIte, List.not_mem_nil, false_implies, implies_true,
      and_true]
  · simp only [write_of_handle hw, read_of_handle hw, passed, hw, ↓reduceIte]
    cases s.handle? p with
    | none => simp
    | some c =>
      simp only [Option.bind_some, Option.map_some, Option.toList_some, List.mem_singleton, forall_eq,
        Store.owners_eq_liveOwners]
      by_cases sole : s.liveOwners c = 1 <;> simp [sole]

/-- A step that is not through a handle leads one step further in. -/
theorem read_inside (hw : w.sharing = .none) (h : w.read s p = some q) :
    p.Covers q ∧ q.path.length = p.path.length + 1 := by
  cases w <;> simp only [read, reduceCtorEq] at h <;>
    first
    | (obtain ⟨rfl, -⟩ := Store.inside?_eq_some.mp h
       exact ⟨p.covers_step _, p.length_inside⟩)
    | (obtain ⟨rfl, -⟩ := Store.item?_eq_some.mp h
       exact ⟨p.covers_step _, p.length_item 0⟩)
    | cases hw

theorem exists_get?_of_read (closed : s.Closed) (h : w.read s p = some q) : ∃ u, s.get? q = some u := by
  by_cases hw : w.sharing = .none
  · cases w <;> simp only [read, reduceCtorEq] at h <;>
      first
      | (obtain ⟨rfl, v, hv⟩ := Store.inside?_eq_some.mp h
         exact ⟨v, by rw [Place.inside, Store.get?_step, hv]; rfl⟩)
      | exact (Store.item?_eq_some.mp h).2
      | cases hw
  · rw [read_of_handle hw, Option.map_eq_some_iff] at h
    obtain ⟨c, hc, rfl⟩ := h
    obtain ⟨v, hv, owns⟩ := Store.owned_of_handle? hc
    have hlt := closed _ v c hv owns
    exact ⟨s.cells[c], by rw [Store.get?_cell, List.getElem?_eq_getElem hlt]⟩

theorem read_congr (h : s.Alike t p) : w.read s p = w.read t p := by
  cases w <;>
    first
    | exact Store.inside?_congr h
    | exact congrArg (Option.map Place.cell) (Store.handle?_congr h)
    | exact Store.item?_congr h 0
    | rfl

theorem passed_congr (h : s.Alike t p) : w.passed s p = w.passed t p := by
  rw [passed, passed, Store.handle?_congr h]

/-! ### Steps at a position -/

/-- How many steps in an element is at a position: the entries of a mapping are one step more. -/
def depthAt : Wrapper → Nat
  | hashMap _ | orderedMap _ => 2
  | _ => 1

theorem writeAt_eq_readAt (lends : w.lendsMutAt = true) : w.writeAt pos s p = w.readAt pos s p := by
  cases w <;> first | (cases lends; done) | (cases pos <;> rfl)

theorem readAt_eq_some (lends : w.lendsMutAt = true) (h : w.readAt pos s p = some q) :
    (w.depthAt = 1 ∧ ∃ i, pos = .index i ∧ s.item? p i = some q) ∨
      (w.depthAt = 2 ∧ ∃ k, pos = .key k ∧ s.bound? p k = some q) := by
  cases w <;> cases lends
  all_goals
    cases pos <;> simp only [readAt, reduceCtorEq] at h
    first
    | exact .inl ⟨rfl, _, rfl, h⟩
    | exact .inr ⟨rfl, _, rfl, h⟩

theorem readAt_inside (lends : w.lendsMutAt = true) (h : w.readAt pos s p = some q) :
    p.Covers q ∧ q.path.length = p.path.length + w.depthAt := by
  rcases readAt_eq_some lends h with ⟨depth, i, -, hq⟩ | ⟨depth, k, -, hq⟩
  · obtain ⟨rfl, -⟩ := Store.item?_eq_some.mp hq
    exact ⟨p.covers_step _, by rw [depth, Place.length_item]⟩
  · obtain ⟨i, v, rfl, -⟩ := Store.bound?_eq_some hq
    exact ⟨(p.covers_step _).trans ((p.item i).covers_step _), by rw [depth, Place.length_inside, Place.length_item]⟩

theorem exists_get?_of_readAt (lends : w.lendsMutAt = true) (h : w.readAt pos s p = some q) :
    ∃ u, s.get? q = some u := by
  rcases readAt_eq_some lends h with ⟨-, i, -, hq⟩ | ⟨-, k, -, hq⟩
  · exact (Store.item?_eq_some.mp hq).2
  · obtain ⟨i, v, rfl, hv⟩ := Store.bound?_eq_some hq
    exact ⟨v, by rw [Place.inside, Store.get?_step, hv]; rfl⟩

theorem readAt_injective (lends : w.lendsMutAt = true) (h : w.readAt pos s p = some q)
    (h' : w.readAt pos' s p = some q) : pos = pos' := by
  rcases readAt_eq_some lends h with ⟨depth, i, rfl, hq⟩ | ⟨depth, k, rfl, hq⟩ <;>
    rcases readAt_eq_some lends h' with ⟨depth', j, rfl, hq'⟩ | ⟨depth', l, rfl, hq'⟩
  · obtain ⟨rfl, -⟩ := Store.item?_eq_some.mp hq
    obtain ⟨hij, -⟩ := Store.item?_eq_some.mp hq'
    rw [Place.item_injective hij]
  · rw [depth] at depth'
    cases depth'
  · rw [depth] at depth'
    cases depth'
  · obtain ⟨i, v, rfl, hv⟩ := Store.bound?_eq_some hq
    obtain ⟨j, u, hij, hu⟩ := Store.bound?_eq_some hq'
    rw [← Place.inside_injective hij, hv] at hu
    cases hu
    rfl

/-- A step at a position reads the outlines that are less deep than the elements. -/
theorem readAt_congr (lends : w.lendsMutAt = true)
    (h : ∀ r : Place, r.base = p.base → r.path.length < p.path.length + w.depthAt → s.Alike t r) :
    w.readAt pos s p = w.readAt pos t p := by
  cases w <;> cases lends
  all_goals
    cases pos <;>
      first
      | rfl
      | exact Store.item?_congr (h p rfl (by simp [depthAt])) _
      | exact Store.bound?_congr (fun i => h (p.item i) rfl (by simp [depthAt])) _

end Wrapper
end Accessors
