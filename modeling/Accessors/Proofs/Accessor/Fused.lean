import Accessors.Proofs.Accessor.Chain
import Accessors.Proofs.Session.Uses
import Accessors.Proofs.Ty.Found
import Accessors.Wrapper.Paths

/-! # Two steps in one

A member whose two outermost wrappers merge is entered in one step. That step lends and takes what the single steps
of the two wrappers do that are joined into one accessor, and a position goes to whichever of the two is a container.
The step into a shared guarded value is the step of the handle alone. -/

namespace Accessors

/-- Two wrappers, one right inside the other, around a payload. -/
structure Pair where
  outer : Wrapper
  inner : Wrapper
  payload : Ty
deriving DecidableEq, Repr

namespace Pair
variable (k : Pair)

def type : Ty := .wrap k.outer (.wrap k.inner k.payload)

def outside : WrapperPath := ⟨k.outer, .wrap k.inner k.payload⟩

def inside : WrapperPath := ⟨k.inner, k.payload⟩

/-! The steps of the two wrappers, joined. -/

def fr : Accessor .failableReadable k.type k.payload := k.outside.fr.compose k.inside.fr rfl

def fw : Accessor .failableWritable k.type k.payload := k.outside.fw.compose k.inside.fw rfl

def fo : Accessor .failableOwned k.type k.payload := k.outside.fo.compose k.inside.fo rfl

def frAt (pos : Position) : Accessor .failableReadable k.type k.payload :=
  if k.outer.positional then (k.outside.frAt pos).compose k.inside.fr rfl
  else k.outside.fr.compose (k.inside.frAt pos) rfl

def fwAt (pos : Position) : Accessor .failableWritable k.type k.payload :=
  if k.outer.positional then (k.outside.fwAt pos).compose k.inside.fw rfl
  else k.outside.fw.compose (k.inside.fwAt pos) rfl

/-- Both wrappers have a step of the flavor. -/
def Has (f : Flavor) : Prop := (k.outside.step? f).isSome = true ∧ (k.inside.step? f).isSome = true

/-- The container of the two has a step of the flavor to an element, and the other wrapper one to its inside. -/
def HasAt (f : Flavor) : Prop :=
  if k.outer.positional then (k.outside.stepAt? f).isSome = true ∧ (k.inside.step? f).isSome = true
  else (k.outside.step? f).isSome = true ∧ (k.inside.stepAt? f).isSome = true

end Pair

/-! ### What joined steps find -/

namespace WrapperPath
variable (k : WrapperPath) (pos : Position) (s : Store) (p : Place)

theorem get_fr : (Erased.of k.fr).get s p = .ok (.done (k.wrapper.read s p)) := rfl

theorem getMut_fw : (Erased.of k.fw).getMut s p = .ok (.done (k.wrapper.write s p)) := rfl

theorem getOwned_fo (v : Value) : (Erased.of k.fo).getOwned s v = .ok (.done (inVariable s v k.wrapper.take)) := rfl

theorem get_frAt : (Erased.of (k.frAt pos)).get s p = .ok (.done (k.wrapper.readAt pos s p)) := rfl

theorem getMut_fwAt : (Erased.of (k.fwAt pos)).getMut s p = .ok (.done (k.wrapper.writeAt pos s p)) := rfl

end WrapperPath

namespace Erased
variable {f g k : Flavor} {R M V : Ty} {a : Accessor f R M} {b : Accessor g M V} {s : Store} {p : Place} {v : Value}

theorem find_of_get {r : Run (Option Place)} (h : f.reads = true) (ha : (of a).get s p = .ok r) :
    a.find h s p = r :=
  Except.ok.inj ((get_of_reads (e := of a) h s p).symm.trans ha)

theorem findMut_of_getMut {r : Run (Option Place)} (h : f.writes = true) (ha : (of a).getMut s p = .ok r) :
    a.findMut h s p = r :=
  Except.ok.inj ((getMut_of_writes (e := of a) h s p).symm.trans ha)

theorem findOwned_of_getOwned {r : Run (Store × Option Value)} (h : f.owns = true)
    (ha : (of a).getOwned s v = .ok r) : a.findOwned h s v = r :=
  Except.ok.inj ((getOwned_of_owns (e := of a) h s v).symm.trans ha)

variable (h : f.compose g = some k)
include h

theorem get_compose_of_done {x y : Store → Place → Option Place} (hk : k.reads = true)
    (ha : ∀ s p, (of a).get s p = .ok (.done (x s p))) (hb : ∀ s p, (of b).get s p = .ok (.done (y s p)))
    (s : Store) (p : Place) : (of (a.compose b h)).get s p = .ok (.done ((x s p).bind (y s))) := by
  obtain ⟨hf, hg⟩ := Flavor.reads_of_compose h hk
  refine (get_of_reads (e := of (a.compose b h)) hk s p).trans (congrArg Except.ok ?_)
  refine (Accessor.find_compose a b h hk s p).trans ?_
  rw [find_of_get hf (ha s p), Run.done_andThen]
  cases x s p with
  | none => rfl
  | some q => exact find_of_get hg (hb s q)

theorem getMut_compose_of_done {x y : Store → Place → Option Place} (hk : k.writes = true)
    (ha : ∀ s p, (of a).getMut s p = .ok (.done (x s p))) (hb : ∀ s p, (of b).getMut s p = .ok (.done (y s p)))
    (s : Store) (p : Place) : (of (a.compose b h)).getMut s p = .ok (.done ((x s p).bind (y s))) := by
  obtain ⟨hf, hg⟩ := Flavor.writes_of_compose h hk
  refine (getMut_of_writes (e := of (a.compose b h)) hk s p).trans (congrArg Except.ok ?_)
  refine (Accessor.findMut_compose a b h hk s p).trans ?_
  rw [findMut_of_getMut hf (ha s p), Run.done_andThen]
  cases x s p with
  | none => rfl
  | some q => exact findMut_of_getMut hg (hb s q)

theorem getOwned_compose_of_done {x y : Store → Value → Store × Option Value} (hg : g.owns = true) (hk : k.owns = true)
    (ha : ∀ s v, (of a).getOwned s v = .ok (.done (x s v))) (hb : ∀ s v, (of b).getOwned s v = .ok (.done (y s v)))
    (s : Store) (v : Value) :
    (of (a.compose b h)).getOwned s v = .ok (.done ((x s v).2.elim ((x s v).1, none) (y (x s v).1))) := by
  have hf := Flavor.owns_of_compose h hk
  refine (getOwned_of_owns (e := of (a.compose b h)) hk s v).trans (congrArg Except.ok ?_)
  refine (Accessor.findOwned_compose a b h hk s v).trans ?_
  rw [findOwned_of_getOwned hf (ha s v), Run.done_andThen]
  rcases x s v with ⟨t, m | m⟩
  · rfl
  · exact (Accessor.handOn_of_owns b hg t m).trans (findOwned_of_getOwned hg (hb t m))

end Erased

namespace Pair
open WrapperPath
variable (k : Pair) (pos : Position) (s : Store) (p : Place)

theorem get_fr : (Erased.of k.fr).get s p = .ok (.done ((k.outer.read s p).bind (k.inner.read s))) :=
  Erased.get_compose_of_done rfl rfl k.outside.get_fr k.inside.get_fr s p

theorem getMut_fw : (Erased.of k.fw).getMut s p = .ok (.done ((k.outer.write s p).bind (k.inner.write s))) :=
  Erased.getMut_compose_of_done rfl rfl k.outside.getMut_fw k.inside.getMut_fw s p

theorem get_frAt : (Erased.of (k.frAt pos)).get s p = .ok (.done (
    if k.outer.positional then (k.outer.readAt pos s p).bind (k.inner.read s)
    else (k.outer.read s p).bind (k.inner.readAt pos s))) := by
  cases outer : k.outer.positional with
  | true =>
    simp only [frAt, outer, ↓reduceIte]
    exact Erased.get_compose_of_done rfl rfl (k.outside.get_frAt pos) k.inside.get_fr s p
  | false =>
    simp only [frAt, outer, Bool.false_eq_true, ↓reduceIte]
    exact Erased.get_compose_of_done rfl rfl k.outside.get_fr (k.inside.get_frAt pos) s p

theorem getMut_fwAt : (Erased.of (k.fwAt pos)).getMut s p = .ok (.done (
    if k.outer.positional then (k.outer.writeAt pos s p).bind (k.inner.write s)
    else (k.outer.write s p).bind (k.inner.writeAt pos s))) := by
  cases outer : k.outer.positional with
  | true =>
    simp only [fwAt, outer, ↓reduceIte]
    exact Erased.getMut_compose_of_done rfl rfl (k.outside.getMut_fwAt pos) k.inside.getMut_fw s p
  | false =>
    simp only [fwAt, outer, Bool.false_eq_true, ↓reduceIte]
    exact Erased.getMut_compose_of_done rfl rfl k.outside.getMut_fw (k.inside.getMut_fwAt pos) s p

theorem getOwned_fo (v : Value) :
    (Erased.of k.fo).getOwned s v = .ok (.done (Ty.takeOn k.inner (inVariable s v k.outer.take))) :=
  Erased.getOwned_compose_of_done rfl rfl rfl k.outside.getOwned_fo k.inside.getOwned_fo s v

end Pair

/-! ### Two wrappers that merge -/

namespace Pair
variable {k : Pair} (merged : k.type.traits.merged = true)
include merged

theorem exists_combine : ∃ shape, Shape.combine k.outer.shape k.inner.shape = some shape ∧
    k.type.traits.shape = shape ∧ k.type.traits.inner = k.payload := by
  rcases Ty.layers k.outer (.wrap k.inner k.payload) with @⟨v, u, shape, pair, -, whole⟩ | ⟨-, whole⟩
  · exact ⟨shape, pair, congrArg Traits.shape whole, congrArg Traits.inner whole⟩
  · have alone : k.type.traits.merged = false := congrArg Traits.merged whole
    rw [alone] at merged
    cases merged

section
variable (reachable : k.type.traits.shape.sharedGuard = false)
include reachable

theorem read_eq (s : Store) (p : Place) : k.type.read s p = (k.outer.read s p).bind (k.inner.read s) := by
  unfold type at merged reachable ⊢
  simp only [Ty.read, Ty.mergedPair?_of_merged merged, reachable, Bool.false_eq_true, ↓reduceIte]

theorem write_eq (s : Store) (p : Place) : k.type.write s p = (k.outer.write s p).bind (k.inner.write s) := by
  unfold type at merged reachable ⊢
  simp only [Ty.write, Ty.mergedPair?_of_merged merged, reachable, Bool.false_eq_true, ↓reduceIte]

/-- Where the step through both is offered, both wrappers have theirs. -/
theorem has_of_offered {f : Flavor} (hf : f ∈ [.failableReadable, .failableWritable, .failableOwned])
    (h : k.type.capabilities.offered.contains f = true) : k.Has f := by
  obtain ⟨shape, pair, hs, -⟩ := exists_combine merged
  rw [Ty.capabilities, hs] at h
  rw [hs] at reachable
  generalize k.type.traits.sharing = m at h
  clear merged hs
  obtain ⟨w, v, u⟩ := k
  simp only [List.mem_cons, List.not_mem_nil, or_false] at hf
  cases w <;> cases v <;> simp [Shape.combine, Wrapper.shape] at pair <;> subst pair <;>
    first
    | (cases reachable; done)
    | (rcases hf with rfl | rfl | rfl <;>
        first
        | exact ⟨rfl, rfl⟩
        | (cases m <;> cases h))

end

section
variable (guard : k.type.traits.shape.sharedGuard = true)
include guard

theorem read_of_guard (s : Store) (p : Place) : k.type.read s p = k.outer.read s p := by
  unfold type at merged guard ⊢
  simp only [Ty.read, Ty.mergedPair?_of_merged merged, guard, ↓reduceIte]

theorem write_of_guard (s : Store) (p : Place) : k.type.write s p = k.outer.write s p := by
  unfold type at merged guard ⊢
  simp only [Ty.write, Ty.mergedPair?_of_merged merged, guard, ↓reduceIte]

omit merged in
theorem atPosition_of_guard : k.type.capabilities.atPosition = ∅ := by
  rw [Ty.capabilities]
  generalize k.type.traits.shape = shape at guard
  cases shape <;> first | rfl | cases guard

end

omit merged in
theorem lends_of_handle (hw : k.outer.sharing ≠ .none) : k.outer.lends = true ∧ k.outer.lendsMut = true := by
  generalize k.outer = w at hw
  cases w <;> first | exact ⟨rfl, rfl⟩ | exact absurd rfl hw

theorem readAt_eq (pos : Position) (s : Store) (p : Place) : k.type.readAt pos s p =
    if k.outer.positional then (k.outer.readAt pos s p).bind (k.inner.read s)
    else (k.outer.read s p).bind (k.inner.readAt pos s) := by
  unfold type at merged ⊢
  simp only [Ty.readAt, Ty.mergedPair?_of_merged merged]

theorem writeAt_eq (pos : Position) (s : Store) (p : Place) : k.type.writeAt pos s p =
    if k.outer.positional then (k.outer.writeAt pos s p).bind (k.inner.write s)
    else (k.outer.write s p).bind (k.inner.writeAt pos s) := by
  unfold type at merged ⊢
  simp only [Ty.writeAt, Ty.mergedPair?_of_merged merged]

/-- Where the step to an element is offered, the container has one and the other wrapper one to its inside. -/
theorem hasAt_of_offered {f : Flavor} (hf : f ∈ [.failableReadable, .failableWritable])
    (h : k.type.capabilities.atPosition.contains f = true) : k.HasAt f := by
  obtain ⟨shape, pair, hs, -⟩ := exists_combine merged
  rw [Ty.capabilities, hs] at h
  clear merged hs
  obtain ⟨w, v, u⟩ := k
  simp only [List.mem_cons, List.not_mem_nil, or_false] at hf
  cases w <;> cases v <;> simp [Shape.combine, Wrapper.shape] at pair <;> subst pair <;>
    first
    | cases h
    | (rcases hf with rfl | rfl <;> exact ⟨rfl, rfl⟩)

end Pair

/-! ### Taking through both -/

namespace Ty
variable {w v : Wrapper} {s : Store} {p : Place} {m : Value} {i : Nat} {z : Store × Option Value}

theorem takeOn_confined (h : s.ConfinedTo i z.1) : s.ConfinedTo i (takeOn v z).1 := by
  obtain ⟨s', m⟩ := z
  cases m with
  | none => exact h
  | some m => exact h.trans (takeLoose_confined v s' m i)

theorem held_takeOn : (takeOn v z).1.held = z.1.held := by
  obtain ⟨s', m⟩ := z
  cases m with
  | none => rfl
  | some m => exact v.held_take _ _

theorem slots_takeLoose (w : Wrapper) (s : Store) (x : Value) : (takeLoose w s x).1.slots = s.slots :=
  Store.slots_pop_of_confined (Wrapper.take_confined .slot)

/-- What is taken out of an optional owns all that the optional did. -/
theorem ownersIn_slots_take_optional (hp : p.base = .slot i) (h : (Wrapper.optional.take s p).2 = some m) (c : Nat) :
    Value.ownersIn c (Wrapper.optional.take s p).1.slots = Value.ownersIn c (s.takeOut p).1.slots := by
  have whole := Store.ownersIn_slots_takeOut (s := s) hp c
  have inside := Store.ownersIn_slots_takeOut (s := s) (p := p.inside) hp c
  obtain ⟨q, hq⟩ : ∃ q, s.inside? p = some q := by
    cases hq : s.inside? p with
    | none =>
      simp only [Wrapper.take, hq, Wrapper.takeFrom, reduceCtorEq] at h
    | some q => exact ⟨q, rfl⟩
  obtain ⟨rfl, x, hx⟩ := Store.inside?_eq_some.mp hq
  have taken : (Wrapper.optional.take s p).1 = (s.takeOut p.inside).1 := by
    simp only [Wrapper.take, hq, Wrapper.takeFrom]
  have same : (s.takeOut p).2.owners c = (s.takeOut p.inside).2.owners c := by
    have outer : (s.takeOut p).2 = .holding x := Store.value_eq hx
    have inner : (s.takeOut p.inside).2 = x := Store.value_inside (Store.value_eq hx)
    rw [outer, inner, Value.owners]
  rw [taken]
  omega

/-- A handle that merges with a wrapper around it is in an optional. -/
theorem optional_of_combine {k : Shape} (pair : Shape.combine w.shape v.shape = some k) (hv : v.sharing ≠ .none) :
    w = .optional := by
  cases w <;> cases v <;> simp [Shape.combine, Wrapper.shape] at pair <;>
    first
    | rfl
    | exact absurd rfl hv

section
variable {k : Shape} (pair : Shape.combine w.shape v.shape = some k) (hp : p.base = .slot i)
include pair hp

/-- What the outer wrapper gives away in place, and out of a variable of its own, has the same owners beside it. -/
theorem agrees_take (hv : v.sharing ≠ .none) (h : (w.take s p).2 = some m) :
    ((w.take s p).1.push m).1.Agrees ((takeLoose w (s.takeOut p).1 (s.takeOut p).2).1.push m).1 where
  cells := (Wrapper.take_congr hp w rfl (Store.value_push _ _).symm (s.agrees_takeOut hp).cells
    fun _ => (s.agrees_takeOut hp).owners_eq).2
  held := by
    have inPlace := w.held_take s p
    have apart := w.held_take ((s.takeOut p).1.push (s.takeOut p).2).1 ((s.takeOut p).1.push (s.takeOut p).2).2
    exact inPlace.trans ((s.held_set p .moved).symm.trans apart.symm)
  slots c := by
    rw [Store.ownersIn_push, Store.ownersIn_push, slots_takeLoose]
    cases optional_of_combine pair hv
    rw [ownersIn_slots_take_optional hp h]

/-- Taking in place, and out of a variable of its own, come to the same value and leave the same cells. -/
theorem takeOn_take_congr :
    (takeOn v (w.take s p)).2 = (takeOn v (takeLoose w (s.takeOut p).1 (s.takeOut p).2)).2 ∧
      (takeOn v (w.take s p)).1.cells = (takeOn v (takeLoose w (s.takeOut p).1 (s.takeOut p).2)).1.cells := by
  obtain ⟨same, cells⟩ := Wrapper.take_congr hp w rfl (Store.value_push (s.takeOut p).1 (s.takeOut p).2).symm
    (s.agrees_takeOut hp).cells fun _ => (s.agrees_takeOut hp).owners_eq
  have same : (w.take s p).2 = (takeLoose w (s.takeOut p).1 (s.takeOut p).2).2 := same
  have cells : (w.take s p).1.cells = (takeLoose w (s.takeOut p).1 (s.takeOut p).2).1.cells := cells
  have agrees := fun m hv => agrees_take (s := s) (m := m) pair hp hv
  simp only [takeOn, ← same]
  cases h : (w.take s p).2 with
  | none => exact ⟨rfl, cells⟩
  | some m =>
    have value : ∀ t : Store, (t.push m).1.value (t.push m).2 = m := fun t => t.value_push m
    exact Wrapper.take_congr rfl v rfl ((value _).trans (value _).symm) cells fun hv => (agrees m hv h).owners_eq

end

/-- Once the variable that was taken from goes out of use, nothing is left to tell the two apart. -/
theorem pop_takeOn_take {k : Shape} {x : Value} (pair : Shape.combine w.shape v.shape = some k)
    (hp : p.base = .slot s.slots.length) :
    (takeOn v (w.take (s.push x).1 p)).1.pop = (takeOn v
      (takeLoose w ((s.push x).1.takeOut p).1 ((s.push x).1.takeOut p).2)).1.pop := by
  have owner : (s.push x).1.Exclusive s.slots.length p.base := hp ▸ .slot
  have inPlace : (s.push x).1.ConfinedTo s.slots.length (takeOn v (w.take (s.push x).1 p)).1 :=
    takeOn_confined (Wrapper.take_confined owner)
  have apart : (s.push x).1.ConfinedTo s.slots.length
      (takeOn v (takeLoose w ((s.push x).1.takeOut p).1 ((s.push x).1.takeOut p).2)).1 :=
    takeOn_confined ((owner.set_confined .moved).trans (takeLoose_confined w _ _ _))
  refine Store.eq_of_fields ?_ (takeOn_take_congr pair hp).2 ?_
  · rw [Store.slots_pop_of_confined inPlace, Store.slots_pop_of_confined apart]
  · have looseHeld : ∀ (t : Store) (y : Value), (takeLoose w t y).1.held = t.held := fun t y => w.held_take _ _
    have inPlaceHeld : (takeOn v (w.take (s.push x).1 p)).1.held = s.held := held_takeOn.trans (w.held_take _ _)
    have apartHeld := (held_takeOn (v := v)).trans
      ((looseHeld ((s.push x).1.takeOut p).1 ((s.push x).1.takeOut p).2).trans ((s.push x).1.held_set p .moved))
    exact inPlaceHeld.trans apartHeld.symm

end Ty

/-! ### Members -/

namespace Member
variable (m : Member) (R : Ty) {k : Pair}

/-- The accessors of a member that go through two wrappers find and take what the joined steps of the wrappers do.
    The joined steps take the member out of a root that is left without it. -/
structure TwoSteps (k : Pair) : Prop where
  target : m.type.unwrapped = k.payload
  fr : m.offers .failableReadable = true → k.Has .failableReadable ∧
    ∀ s p, (Erased.of (m.fr R)).get s p = (Erased.of k.fr).get s (m.place p)
  fw : m.offers .failableWritable = true → k.Has .failableWritable ∧
    ∀ s p, (Erased.of (m.fw R)).getMut s p = (Erased.of k.fw).getMut s (m.place p)
  fo : m.offers .failableOwned = true → k.Has .failableOwned ∧ ∀ (s : Store) (v : Value), ∃ s' u,
    (Erased.of (m.fo R)).getOwned s v = .ok (.done (s'.pop, u)) ∧
    (Erased.of k.fo).getOwned ((s.push v).1.takeOut (m.place (s.push v).2)).1
      ((s.push v).1.takeOut (m.place (s.push v).2)).2 = .ok (.done (s', u))
  frAt : m.offersAt .failableReadable = true → k.HasAt .failableReadable ∧
    ∀ pos s p, (Erased.of (m.frAt R pos)).get s p = (Erased.of (k.frAt pos)).get s (m.place p)
  fwAt : m.offersAt .failableWritable = true → k.HasAt .failableWritable ∧
    ∀ pos s p, (Erased.of (m.fwAt R pos)).getMut s p = (Erased.of (k.fwAt pos)).getMut s (m.place p)

/-- The accessors of a member that stop inside the outer wrapper find what its single steps do, and there are no
    others. -/
structure OneStep (k : Pair) : Prop where
  target : m.type.unwrapped = k.outside.payload
  fr : (k.outside.step? .failableReadable).isSome = true ∧
    ∀ s p, (Erased.of (m.fr R)).get s p = (Erased.of k.outside.fr).get s (m.place p)
  fw : (k.outside.step? .failableWritable).isSome = true ∧
    ∀ s p, (Erased.of (m.fw R)).getMut s p = (Erased.of k.outside.fw).getMut s (m.place p)
  others : m.offers .failableOwned = false ∧ ∀ f, m.offersAt f = false

variable {m} (hm : m.type = k.type) (merged : k.type.traits.merged = true)
include hm merged

theorem getOwned_fo_eq (s : Store) (v : Value) : ∃ s' u,
    (Erased.of (m.fo R)).getOwned s v = .ok (.done (s'.pop, u)) ∧
    (Erased.of k.fo).getOwned ((s.push v).1.takeOut (m.place (s.push v).2)).1
      ((s.push v).1.takeOut (m.place (s.push v).2)).2 = .ok (.done (s', u)) := by
  obtain ⟨shape, pair, -⟩ := Pair.exists_combine merged
  have base : (m.place (s.push v).2).base = .slot s.slots.length := rfl
  have stores := Ty.pop_takeOn_take (x := v) pair base
  have values := (Ty.takeOn_take_congr (s := (s.push v).1) pair base).1
  have whole : m.type.take (s.push v).1 (m.place (s.push v).2) =
      Ty.takeOn k.inner (k.outer.take (s.push v).1 (m.place (s.push v).2)) := by
    rw [hm]
    exact Ty.take_of_merged merged
  refine ⟨_, _, ?_, k.getOwned_fo _ _⟩
  refine congrArg (fun x => Except.ok (Run.done x)) (Prod.ext ?_ ?_)
  · exact (congrArg (fun z => z.1.pop) whole).trans stores
  · exact (congrArg Prod.snd whole).trans values

theorem twoSteps (reachable : k.type.traits.shape.sharedGuard = false) : m.TwoSteps R k where
  target := by
    obtain ⟨-, -, -, inner⟩ := Pair.exists_combine merged
    rw [hm, Ty.unwrapped, reachable, inner]
    rfl
  fr h := by
    refine ⟨Pair.has_of_offered merged reachable (by simp) ?_, fun s p => ?_⟩
    · rw [← hm]
      exact (Bool.and_eq_true_iff.mp h).1
    · rw [get_fr, hm, Pair.read_eq merged reachable, Pair.get_fr]
  fw h := by
    refine ⟨Pair.has_of_offered merged reachable (by simp) ?_, fun s p => ?_⟩
    · rw [← hm]
      exact (Bool.and_eq_true_iff.mp h).1
    · rw [getMut_fw, hm, Pair.write_eq merged reachable, Pair.getMut_fw]
  fo h := by
    refine ⟨Pair.has_of_offered merged reachable (by simp) ?_, getOwned_fo_eq R hm merged⟩
    rw [← hm]
    exact (Bool.and_eq_true_iff.mp h).1
  frAt h := by
    refine ⟨Pair.hasAt_of_offered merged (by simp) ?_, fun pos s p => ?_⟩
    · rw [← hm]
      exact (Bool.and_eq_true_iff.mp h).1
    · rw [get_frAt, hm, Pair.readAt_eq merged, Pair.get_frAt]
  fwAt h := by
    refine ⟨Pair.hasAt_of_offered merged (by simp) ?_, fun pos s p => ?_⟩
    · rw [← hm]
      exact (Bool.and_eq_true_iff.mp h).1
    · rw [getMut_fwAt, hm, Pair.writeAt_eq merged, Pair.getMut_fwAt]

theorem oneStep (guard : k.type.traits.shape.sharedGuard = true) : m.OneStep R k := by
  obtain ⟨shape, pair, hs, -⟩ := Pair.exists_combine merged
  obtain ⟨lends, lendsMut⟩ := Pair.lends_of_handle (Wrapper.sharing_of_sharedGuard pair (hs ▸ guard))
  refine ⟨?_, ⟨?_, fun s p => ?_⟩, ⟨?_, fun s p => ?_⟩, ?_, fun f => ?_⟩
  · rw [hm, Ty.unwrapped, guard]
    rfl
  · simp only [WrapperPath.step?, Pair.outside, lends, ↓reduceIte, Option.isSome_some]
  · rw [get_fr, hm, Pair.read_of_guard merged guard]
    rfl
  · simp only [WrapperPath.step?, Pair.outside, lendsMut, ↓reduceIte, Option.isSome_some]
  · rw [getMut_fw, hm, Pair.write_of_guard merged guard]
    rfl
  · by_contra h
    have offered := (Bool.and_eq_true_iff.mp (Bool.not_eq_false _ ▸ h)).1
    rw [hm] at offered
    rw [Ty.not_sharedGuard_of_offered offered] at guard
    cases guard
  · rw [offersAt, hm, Pair.atPosition_of_guard guard, FlavorSet.contains_empty, Bool.false_and]

end Member

/-- A member whose two outermost wrappers merge is entered as the joined steps of the two enter it, and a shared
    guarded value as the step of the handle alone does. -/
theorem Member.fused (m : Member) (R : Ty) (merged : m.type.traits.merged = true) : ∃ k : Pair, m.type = k.type ∧
    (m.type.traits.shape.sharedGuard = false → m.TwoSteps R k) ∧
    (m.type.traits.shape.sharedGuard = true → m.OneStep R k) := by
  obtain ⟨w, v, u, hm⟩ : ∃ w v u, m.type = .wrap w (.wrap v u) := by
    generalize m.type = t at merged
    cases t with
    | plain n => cases merged
    | wrap w t =>
      rcases Ty.layers w t with ⟨-, -, -⟩ | ⟨-, whole⟩
      · exact ⟨_, _, _, rfl⟩
      · rw [whole] at merged
        cases merged
  have hm : m.type = (Pair.mk w v u).type := hm
  rw [hm] at merged ⊢
  exact ⟨⟨w, v, u⟩, rfl, twoSteps R hm merged, oneStep R hm merged⟩

/-- A pointer in an optional is entered as the steps of the two. -/
theorem Member.fused_spare :
    (Ty.wrap .optional (.wrap .localShared (.plain "int"))).traits.merged = true ∧ ∃ k : Pair,
      Ty.wrap .optional (.wrap .localShared (.plain "int")) = k.type ∧
      TwoSteps ⟨"spare", 0, .wrap .optional (.wrap .localShared (.plain "int")), .all⟩ (.plain "w::Shop") k := by
  have merged : (Ty.wrap .optional (.wrap .localShared (.plain "int"))).traits.merged = true := by decide
  obtain ⟨k, hk, two, -⟩ := Member.fused
    ⟨"spare", 0, .wrap .optional (.wrap .localShared (.plain "int")), .all⟩ (.plain "w::Shop") merged
  exact ⟨merged, k, hk, two (by decide)⟩

end Accessors
