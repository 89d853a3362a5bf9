import Accessors.Proofs.Ty.Layers
import Accessors.Proofs.Wrapper.Steps
import Accessors.Ty.Unwrap

/-! # The handle of a type

A type that involves sharing has one handle: the value itself, or what is in the optional around it. The
pointee is lent for writing exactly if the handle is not null, the optional merged with it is engaged, and
the handle is the only live owner. -/

namespace Accessors

namespace Ty
variable {t : Ty} {s : Store} {p : Place} {c : Nat}

/-- The handle of a value owns a cell: the value itself, or the handle in the optional around it. -/
def OwnsAt (t : Ty) (s : Store) (p : Place) (c : Nat) : Prop :=
  match t.traits.shape with
  | .optionalOfShared => s.get? p = some (.holding (.shared c))
  | _ => s.get? p = some (.shared c)

/-- A pointee that is an optional merged with its handle has a value. -/
def PointeeEngaged (t : Ty) (s : Store) (c : Nat) : Prop :=
  match t.traits.shape with
  | .sharedOfOptional => ∃ v, s.cells[c]? = some (.holding v)
  | _ => True

end Ty

namespace Store
variable {s : Store} {p : Place} {c : Nat}

theorem handle?_inside {v : Value} (h : s.get? p = some (.holding v)) :
    s.handle? p.inside = some c ↔ v = .shared c := by
  rw [handle?_eq_some, Place.inside, get?_step, h]
  simp [Value.child?]

end Store

namespace Wrapper
variable {w : Wrapper} {s : Store} {p : Place}

/-- A handle lends its pointee to its sole owner. -/
theorem write_handle {q : Place} (hw : w.sharing ≠ .none) :
    w.write s p = some q ↔ ∃ c, s.get? p = some (.shared c) ∧ s.liveOwners c = 1 ∧ q = .cell c := by
  rw [write_of_handle hw, Option.bind_eq_some_iff]
  refine exists_congr fun c => ?_
  rw [Store.handle?_eq_some, Store.owners_eq_liveOwners]
  refine and_congr_right fun _ => ?_
  split
  · rename_i sole
    simp [sole, eq_comm]
  · rename_i shared
    simp [shared]

end Wrapper

namespace Ty
variable {t : Ty} {s : Store} {p : Place} {w v : Wrapper}

theorem exists_write_handle (hw : w.sharing ≠ .none) :
    (∃ q, w.write s p = some q) ↔ ∃ c, s.get? p = some (.shared c) ∧ True ∧ s.liveOwners c = 1 := by
  constructor
  · rintro ⟨q, hq⟩
    obtain ⟨c, hget, sole, -⟩ := (Wrapper.write_handle hw).mp hq
    exact ⟨c, hget, trivial, sole⟩
  · rintro ⟨c, hget, -, sole⟩
    exact ⟨.cell c, (Wrapper.write_handle hw).mpr ⟨c, hget, sole, rfl⟩⟩

theorem exists_write_optional_handle (hv : v.sharing ≠ .none) :
    (∃ q, (Wrapper.optional.write s p).bind (v.write s) = some q) ↔
      ∃ c, s.get? p = some (.holding (.shared c)) ∧ True ∧ s.liveOwners c = 1 := by
  constructor
  · rintro ⟨q, hq⟩
    obtain ⟨m, hm, hq⟩ := Option.bind_eq_some_iff.mp hq
    obtain ⟨rfl, x, hx⟩ := Store.inside?_eq_some.mp hm
    obtain ⟨c, hget, sole, -⟩ := (Wrapper.write_handle hv).mp hq
    have hx' := (Store.handle?_inside hx).mp (Store.handle?_eq_some.mpr hget)
    exact ⟨c, hx' ▸ hx, trivial, sole⟩
  · rintro ⟨c, hget, -, sole⟩
    have inside : s.get? p.inside = some (.shared c) :=
      Store.handle?_eq_some.mp ((Store.handle?_inside hget).mpr rfl)
    refine ⟨.cell c, Option.bind_eq_some_iff.mpr ⟨p.inside, Store.inside?_eq_some.mpr ⟨rfl, _, hget⟩, ?_⟩⟩
    exact (Wrapper.write_handle hv).mpr ⟨c, inside, sole, rfl⟩

theorem exists_write_handle_optional (hw : w.sharing ≠ .none) :
    (∃ q, (w.write s p).bind (Wrapper.optional.write s) = some q) ↔
      ∃ c, s.get? p = some (.shared c) ∧ (∃ x, s.cells[c]? = some (.holding x)) ∧ s.liveOwners c = 1 := by
  constructor
  · rintro ⟨q, hq⟩
    obtain ⟨m, hm, hq⟩ := Option.bind_eq_some_iff.mp hq
    obtain ⟨c, hget, sole, rfl⟩ := (Wrapper.write_handle hw).mp hm
    obtain ⟨-, x, hx⟩ := Store.inside?_eq_some.mp hq
    exact ⟨c, hget, ⟨x, (Store.get?_cell s c) ▸ hx⟩, sole⟩
  · rintro ⟨c, hget, ⟨x, hx⟩, sole⟩
    refine ⟨(Place.cell c).inside, Option.bind_eq_some_iff.mpr ⟨.cell c, ?_, ?_⟩⟩
    · exact (Wrapper.write_handle hw).mpr ⟨c, hget, sole, rfl⟩
    · exact Store.inside?_eq_some.mpr ⟨rfl, x, (Store.get?_cell s c).trans hx⟩

/-- A step for writing through a handle finds something exactly if the handle is not null, the optional merged
    with it is engaged, and the handle is the only live owner. -/
theorem write_isSome_iff (h : t.traits.shape.involvesSharing = true) :
    (t.write s p).isSome = true ↔ ∃ c, t.OwnsAt s p c ∧ t.PointeeEngaged s c ∧ s.liveOwners c = 1 := by
  rw [Option.isSome_iff_exists]
  cases t with
  | plain n => cases h
  | wrap w t =>
    rcases layers w t with @⟨v, u, k, pair, -, whole⟩ | ⟨-, whole⟩
    · rw [whole] at h
      simp only [write, OwnsAt, PointeeEngaged, mergedPair?_of_merged (congrArg Traits.merged whole), whole]
      rcases Wrapper.handle_of_combine pair h with ⟨rfl, hv, rfl⟩ | ⟨hw, rfl, rfl⟩ | ⟨hw, guard⟩
      · exact exists_write_optional_handle hv
      · exact exists_write_handle_optional hw
      · cases k <;>
          first
          | exact absurd guard (by decide)
          | exact exists_write_handle hw
    · rw [whole] at h
      have hw : w.sharing ≠ .none := by
        rw [w.involvesSharing_shape] at h
        exact bne_iff_ne.mp h
      simp only [write, OwnsAt, PointeeEngaged, mergedPair?_of_not_merged (congrArg Traits.merged whole), whole]
      cases w <;>
        first
        | exact absurd rfl hw
        | exact exists_write_handle hw

end Ty

end Accessors
