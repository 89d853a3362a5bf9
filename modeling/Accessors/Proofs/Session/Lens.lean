import Accessors.Proofs.Session.Uses
import Accessors.Proofs.Store.Replaced
import Accessors.Proofs.Ty.Lends

/-! # Members as partial lenses

The reading and the writing accessor of a member, to its unwrapped value or to the element at a position, go
together as a partial lens. The writing one finds what the reading one does, unless a handle on the way has
other owners. What was written is read, writing what was read changes nothing, of two values written the last
one stays, and nothing changes but what is at the place that was found. -/

namespace Accessors

namespace Session
variable {R V : Ty}

/-! ### What was found -/

/-- The result of a use, if it was supported, did not break off, and found something. -/
def result? {α : Type} (use : Except Unsupported (Run (Option α))) : Option α :=
  match use with
  | .ok r => r.outcome.toOption.join
  | .error _ => none

/-- The place an accessor lends for reading. -/
def lent (e : Erased R V) (s : Store) : Option Place := result? (e.get s root)

/-- The place an accessor lends for writing. -/
def lentMut (e : Erased R V) (s : Store) : Option Place := result? (e.getMut s root)

/-- The value an accessor reads. -/
def seen (e : Erased R V) (s : Store) : Option Value := result? (read e s)

/-- The session after a value was written, if there was a place for it. -/
def written (e : Erased R V) (x : Value) (s : Store) : Option Store :=
  result? ((write e (some x) s).map (·.map fun r => r.2.map fun _ => r.1))

/-- The session after a value was assigned, if there was a place for it. Until then the value is in a variable of
    its own, so that its handles count as owners when the place is looked for. -/
def assign (e : Erased R V) (x : Value) (s : Store) : Option Store :=
  (written e x (s.push x).1).map Store.pop

/-! ### The laws -/

/-- A reading and a writing accessor that go through the given handles are a partial lens in a session. -/
structure LawfulPair (r w : Erased R V) (handles : List Nat) (s : Store) : Prop where
  /-- What is read can be written if the handles on the way are sole owners. -/
  found : ∀ q, lentMut w s = some q ↔ lent r s = some q ∧ ∀ c ∈ handles, s.liveOwners c = 1
  /-- Without a place to write nothing is changed. -/
  absent : lentMut w s = none → ∀ x, write w x s = .ok (.done (s, none))
  /-- What was written is read. -/
  put_get : ∀ x s', written w x s = some s' → seen r s' = some x
  /-- Writing what was read changes nothing. -/
  get_put : ∀ v s', seen r s = some v → written w v s = some s' → s' = s
  /-- A value is assigned where it can be written, if the handles are sole owners beside it. -/
  assign_iff : ∀ x s', assign w x s = some s' ↔
    written w x s = some s' ∧ ∀ c ∈ handles, (s.push x).1.liveOwners c = 1
  /-- Of two values that are assigned the last one stays. -/
  put_put : ∀ x s', assign w x s = some s' → ∀ y, assign w y s' = assign w y s
  /-- Outside the place that was found everything is as it was, but for what is inside of it. -/
  frame : ∀ x s', written w x s = some s' → ∃ q, lentMut w s = some q ∧
    (∀ p, ¬q.Covers p → s.Alike s' p) ∧ ∀ p, ¬q.Covers p → ¬p.Covers q → s'.get? p = s.get? p

/-- The accessors to the element at a position are a partial lens that leaves the other elements. -/
structure LawfulAt (r w : Position → Erased R V) (pos : Position) (handles : List Nat) (s : Store) : Prop where
  pair : LawfulPair (r pos) (w pos) handles s
  /-- There are elements at the same positions, in the same places. -/
  positions : ∀ x s', written (w pos) x s = some s' → ∀ pos', lent (r pos') s' = lent (r pos') s
  /-- The other elements are the same. -/
  others : ∀ x s', written (w pos) x s = some s' → ∀ pos', pos' ≠ pos → seen (r pos') s' = seen (r pos') s

/-! ### Places that stay -/

/-- What two accessors find and the handles they go through, as functions of the session, in a way that makes
    them a partial lens: what was found stays found when something is put there or another variable is used,
    and a handle on the way is in a variable and owns the cell of what was found. -/
structure Steady (look reach : Store → Option Place) (handles : Store → List Nat) : Prop where
  found : ∀ s q, reach s = some q ↔ look s = some q ∧ ∀ c ∈ handles s, s.liveOwners c = 1
  set : ∀ s q x, look s = some q → look (s.set q x) = some q ∧ handles (s.set q x) = handles s
  push : ∀ s x, s.slots ≠ [] → look (s.push x).1 = look s ∧ handles (s.push x).1 = handles s
  base : ∀ s q, s.slots ≠ [] → look s = some q → q.base ≠ .slot s.slots.length
  handle : ∀ s q, look s = some q → ∀ c ∈ handles s, q.base = .cell c ∧ 0 < Value.ownersIn c s.slots

section
variable {r w : Erased R V} {look reach : Store → Option Place} {handles : Store → List Nat} {s : Store}

theorem lent_eq (hr : ∀ s, r.get s root = .ok (.done (look s))) (s : Store) : lent r s = look s := by
  rw [lent, hr]
  rfl

theorem lentMut_eq (hw : ∀ s, w.getMut s root = .ok (.done (reach s))) (s : Store) : lentMut w s = reach s := by
  rw [lentMut, hw]
  rfl

theorem seen_eq (hr : ∀ s, r.get s root = .ok (.done (look s))) (s : Store) :
    seen r s = (look s).map s.value := by
  rw [seen, read, hr]
  rfl

theorem written_eq (hw : ∀ s, w.getMut s root = .ok (.done (reach s))) (x : Value) (s : Store) :
    written w x s = (reach s).map fun q => s.set q x := by
  rw [written, write, hw]
  cases reach s <;> rfl

variable (steady : Steady look reach handles)
include steady

theorem reach_push (hs : s.slots ≠ []) (x : Value) (q : Place) : reach (s.push x).1 = some q ↔
    look s = some q ∧ ∀ c ∈ handles s, (s.push x).1.liveOwners c = 1 := by
  rw [steady.found, (steady.push s x hs).1, (steady.push s x hs).2]

theorem assign_eq_some (hw : ∀ s, w.getMut s root = .ok (.done (reach s))) (hs : s.slots ≠ []) (x : Value)
    (s' : Store) : assign w x s = some s' ↔
      ∃ q, look s = some q ∧ (∀ c ∈ handles s, (s.push x).1.liveOwners c = 1) ∧ s' = s.set q x := by
  rw [assign, written_eq hw, Option.map_map]
  simp only [Option.map_eq_some_iff, reach_push steady hs, Function.comp_apply]
  constructor
  · rintro ⟨q, ⟨hq, sole⟩, rfl⟩
    exact ⟨q, hq, sole, Store.pop_set_push x (steady.base s q hs hq)⟩
  · rintro ⟨q, hq, sole, rfl⟩
    exact ⟨q, ⟨hq, sole⟩, Store.pop_set_push x (steady.base s q hs hq)⟩

/-- Accessors whose places stay are a partial lens wherever the place found has a value. -/
theorem lawfulPair_of_steady (hr : ∀ s, r.get s root = .ok (.done (look s)))
    (hw : ∀ s, w.getMut s root = .ok (.done (reach s))) (hs : s.slots ≠ [])
    (value : ∀ q, look s = some q → ∃ u, s.get? q = some u) : LawfulPair r w (handles s) s where
  found q := by
    rw [lentMut_eq hw, lent_eq hr]
    exact steady.found s q
  absent h x := by
    rw [lentMut_eq hw] at h
    rw [write, hw, h]
    rfl
  put_get x s' h := by
    rw [written_eq hw, Option.map_eq_some_iff] at h
    obtain ⟨q, hq, rfl⟩ := h
    have hlook := ((steady.found s q).mp hq).1
    obtain ⟨u, hu⟩ := value q hlook
    rw [seen_eq hr, (steady.set s q x hlook).1, Option.map_some, Store.value_eq (Store.get?_set hu)]
  get_put v s' hv h := by
    rw [written_eq hw, Option.map_eq_some_iff] at h
    obtain ⟨q, hq, rfl⟩ := h
    have hlook := ((steady.found s q).mp hq).1
    obtain ⟨u, hu⟩ := value q hlook
    rw [seen_eq hr, hlook, Option.map_some, Store.value_eq hu] at hv
    cases hv
    exact Store.set_self hu
  assign_iff x s' := by
    rw [assign_eq_some steady hw hs, written_eq hw, Option.map_eq_some_iff]
    constructor
    · rintro ⟨q, hq, sole, rfl⟩
      refine ⟨⟨q, (steady.found s q).mpr ⟨hq, fun c hc => ?_⟩, rfl⟩, sole⟩
      exact Store.sole_of_push (steady.handle s q hq c hc).2 (sole c hc)
    · rintro ⟨⟨q, hq, rfl⟩, sole⟩
      exact ⟨q, ((steady.found s q).mp hq).1, sole, rfl⟩
  put_put x s' h y := by
    obtain ⟨q, hq, sole, rfl⟩ := (assign_eq_some steady hw hs x s').mp h
    have hset := steady.set s q x hq
    have hs' : (s.set q x).slots ≠ [] := fun hnil => by
      have length := s.length_slots_set q x
      rw [hnil] at length
      exact hs (List.eq_nil_of_length_eq_zero length.symm)
    refine Option.ext fun t => ?_
    rw [assign_eq_some steady hw hs', assign_eq_some steady hw hs, hset.1, hset.2, hq]
    refine exists_congr fun q' => and_congr_right fun hq' => ?_
    cases hq'
    rw [Store.set_set]
    refine and_congr_left fun _ => forall₂_congr fun c hc => ?_
    obtain ⟨base, owns⟩ := steady.handle s q hq c hc
    exact Store.sole_set_iff base owns (sole c hc)
  frame x s' h := by
    rw [written_eq hw, Option.map_eq_some_iff] at h
    obtain ⟨q, hq, rfl⟩ := h
    exact ⟨q, (lentMut_eq hw s).trans hq, fun p hp => Store.alike_set hp, fun p hp hp' =>
      Store.get?_set_of_apart hp hp'⟩

end

/-! ### Steps from the root -/

section
variable {p : Place} (hp : p.base = .slot 0)
include hp

theorem ne_further {s : Store} {b : Base} (hs : s.slots ≠ []) (hb : b = p.base ∨ ∃ c, b = .cell c) :
    b ≠ .slot s.slots.length := by
  have pos := List.length_pos_iff.mpr hs
  rcases hb with rfl | ⟨c, rfl⟩
  · rw [hp]
    intro h
    have := Base.slot.inj h
    omega
  · exact Base.noConfusion

/-- The wrappers passed from the root make a partial lens if each lends what is inside and one at most is a
    handle. -/
theorem steady_passage {ws : List Wrapper} (lends : ∀ w ∈ ws, w.lendsMut = true) (once : Passage.Once ws) :
    Steady (Passage.read · ws p) (Passage.write · ws p) (Passage.handles · ws p) where
  found s q := Passage.write_eq_some_iff lends
  set s q x h := by
    have leads := Passage.leads once hp h
    have same := Passage.congr fun r hr => Store.alike_set (x := x) (leads.not_covers r hr)
    exact ⟨same.1.symm.trans h, same.2.symm⟩
  push s x hs := by
    have alike : ∀ r ∈ Passage.places s ws p, s.Alike (s.push x).1 r := fun r hr =>
      Store.alike_push (ne_further hp hs (Passage.base_of_places hr))
    exact ⟨(Passage.congr alike).1.symm, (Passage.congr alike).2.symm⟩
  base s q hs h := by
    rcases (Passage.leads once hp h).base with ⟨base, -⟩ | cell
    · exact ne_further hp hs (.inl base)
    · exact ne_further hp hs (.inr cell)
  handle s q h c hc := by
    obtain ⟨base, v, hv, owns⟩ := (Passage.leads once hp h).handle c hc
    exact ⟨base, Value.ownersIn_pos_iff.mpr ⟨0, v, hv, owns⟩⟩

variable {a : Passage.At} (lends : a.Lends)
include lends

theorem steady_element (pos : Position) :
    Steady (a.read pos · p) (a.write pos · p) (a.handles pos · p) where
  found s q := by
    simp only [Passage.At.write_eq_read lends, Passage.At.handles_eq_nil lends, List.not_mem_nil, false_implies,
      implies_true, and_true]
  set s q x h := by
    rw [Passage.At.handles_eq_nil lends, Passage.At.handles_eq_nil lends]
    exact ⟨(Passage.At.read_set lends h x pos).trans h, rfl⟩
  push s x hs := by
    rw [Passage.At.handles_eq_nil lends, Passage.At.handles_eq_nil lends]
    refine ⟨(Passage.At.read_congr lends fun r base _ => Store.alike_push ?_).symm, rfl⟩
    exact ne_further hp hs (.inl base)
  base s q hs h := ne_further hp hs (.inl (Passage.At.read_inside lends h).1)
  handle s q h c hc := by
    rw [Passage.At.handles_eq_nil lends] at hc
    cases hc

/-- Accessors that go one way to each element are partial lenses, and each leaves the elements of the others. -/
theorem lawfulAt_of_lends {r w : Position → Erased R V} {s : Store}
    (reads : ∀ pos s, (r pos).get s root = .ok (.done (a.read pos s p)))
    (writes : ∀ pos s, (w pos).getMut s root = .ok (.done (a.write pos s p))) (hs : s.slots ≠ [])
    (closed : s.Closed) (pos : Position) : LawfulAt r w pos (a.handles pos s p) s where
  pair := lawfulPair_of_steady (steady_element hp lends pos) (reads pos) (writes pos) hs
    fun q hq => Passage.At.exists_get? lends hq closed
  positions x s' h pos' := by
    rw [written_eq (writes pos), Option.map_eq_some_iff] at h
    obtain ⟨q, hq, rfl⟩ := h
    rw [Passage.At.write_eq_read lends] at hq
    rw [lent_eq (reads pos'), lent_eq (reads pos'), Passage.At.read_set lends hq]
  others x s' h pos' hne := by
    rw [written_eq (writes pos), Option.map_eq_some_iff] at h
    obtain ⟨q, hq, rfl⟩ := h
    rw [Passage.At.write_eq_read lends] at hq
    rw [seen_eq (reads pos'), seen_eq (reads pos'), Passage.At.read_set lends hq]
    cases hq' : a.read pos' s p with
    | none => rfl
    | some q' =>
      have apart := Store.get?_set_of_apart (s := s) (x := x) (Passage.At.not_covers lends hq hq' (Ne.symm hne))
        (Passage.At.not_covers lends hq' hq hne)
      simp only [Option.map_some, Store.value, apart]

end

end Session

/-! ### Members -/

namespace Member
variable (m : Member) (R : Ty) {s : Store} {v : Value}
open Session

theorem base_place_root : (m.place root).base = .slot 0 := rfl

/-- The accessors of a member, wherever both the reading and the writing one are declared, are partial lenses:
    those to the unwrapped value, and those to the element at each position. -/
theorem lawful (closed : s.Closed) (hv : s.get? (m.place root) = some v) :
    (m.offers .failableReadable = true → m.offers .failableWritable = true →
      LawfulPair (.of (m.fr R)) (.of (m.fw R)) (m.type.passed s (m.place root)) s) ∧
    (m.offersAt .failableReadable = true → m.offersAt .failableWritable = true → ∀ pos,
      LawfulAt (fun pos => .of (m.frAt R pos)) (fun pos => .of (m.fwAt R pos)) pos
        (m.type.passedAt pos s (m.place root)) s) := by
  have hs : s.slots ≠ [] := by
    intro hnil
    simp [Store.get?, place, root, Place.item, Place.step, Place.slot, Store.root?, hnil] at hv
  refine ⟨fun hr hw => ?_, fun hr hw pos => ?_⟩
  · have lends := Ty.lendsMut_of_offered (Bool.and_eq_true_iff.mp hr).1 (Bool.and_eq_true_iff.mp hw).1
    refine lawfulPair_of_steady (steady_passage m.base_place_root lends m.type.once_passage) (fun s => ?_)
      (fun s => ?_) hs fun q hq => Passage.exists_get? closed ⟨v, hv⟩ hq
    · rw [get_fr, Ty.read_eq_passage]
    · rw [getMut_fw, Ty.write_eq_passage]
  · obtain ⟨a, way, lends⟩ := Ty.wayAt_of_offered (Bool.and_eq_true_iff.mp hr).1 (Bool.and_eq_true_iff.mp hw).1
    have reads : ∀ pos s, (Erased.of (m.frAt R pos)).get s root = .ok (.done (a.read pos s (m.place root))) :=
      fun pos s => by rw [get_frAt, Ty.readAt_eq_way way]
    have writes : ∀ pos s, (Erased.of (m.fwAt R pos)).getMut s root =
        .ok (.done (a.write pos s (m.place root))) := fun pos s => by
      rw [getMut_fwAt, Ty.writeAt_eq_way way]
    have passed : m.type.passedAt pos s (m.place root) = a.handles pos s (m.place root) := by
      simp only [Ty.passedAt, way]
    rw [passed]
    exact lawfulAt_of_lends m.base_place_root lends reads writes hs closed pos

/-- A pointee with one owner, and the optional values of a sequence. -/
theorem lawful_count_and_slots : ∃ s : Store, s.Closed ∧
    s.get? (place ⟨"count", 0, .wrap .localShared (.plain "int"), .all⟩ root) = some (.shared 0) ∧
    LawfulPair (.of (fr ⟨"count", 0, .wrap .localShared (.plain "int"), .all⟩ (.plain "w::Shop")))
      (.of (fw ⟨"count", 0, .wrap .localShared (.plain "int"), .all⟩ (.plain "w::Shop"))) [0] s ∧
    LawfulAt
      (fun pos => .of (frAt ⟨"slots", 1, .wrap .vector (.wrap .optional (.plain "int")), .all⟩ (.plain "w::Shop") pos))
      (fun pos => .of (fwAt ⟨"slots", 1, .wrap .vector (.wrap .optional (.plain "int")), .all⟩ (.plain "w::Shop") pos))
      (.index 1) [] s := by
  have closed : Store.Closed ⟨[.items [.shared 0, .items [.empty, .holding (.int 2)]]], [.int 1], []⟩ := by
    rintro (i | c) v d hv owns
    · obtain ⟨hi, rfl⟩ := List.getElem?_eq_some_iff.mp hv
      simp [Value.owners, Value.ownersIn] at owns
      split at owns
      · rename_i hd
        subst hd
        exact Nat.one_pos
      · exact absurd owns (Nat.lt_irrefl 0)
    · obtain ⟨hc, rfl⟩ := List.getElem?_eq_some_iff.mp hv
      simp [Value.owners] at owns
  refine ⟨_, closed, rfl, ?_, ?_⟩
  · exact (lawful ⟨"count", 0, .wrap .localShared (.plain "int"), .all⟩ (.plain "w::Shop") closed rfl).1 rfl rfl
  · exact (lawful ⟨"slots", 1, .wrap .vector (.wrap .optional (.plain "int")), .all⟩ (.plain "w::Shop") closed
      rfl).2 rfl rfl (.index 1)

end Member
end Accessors
