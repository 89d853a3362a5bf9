import Accessors.Proofs.Accessor.InTurn
import Accessors.Proofs.Accessor.Prism
import Accessors.Proofs.Wrapper.Stack

/-! # Accessors through wrappers

To adapt an accessor is to put the steps of the wrappers before it. So it makes no difference whether accessors are
joined first and then adapted, or the first one is adapted and the others are joined behind it; and through any
number of wrappers an accessor finds what it finds in the payload, as long as every wrapper lets it through.

A case accessor that stays one is built in another way, but it borrows like the others. -/

namespace Accessors

namespace Flavor
variable {f g k : Flavor}

theorem exists_compose (family : f.family = g.family) : ∃ k, f.compose g = some k :=
  Option.isSome_iff_exists.mp (isSome_compose.mpr (.inr family))

theorem exists_compose_of_family {f' : Flavor} (h : f.compose g = some k) (family : f'.family = f.family) :
    ∃ k', f'.compose g = some k' := by
  refine Option.isSome_iff_exists.mp (isSome_compose.mpr ?_)
  rw [family]
  exact isSome_compose.mp (Option.isSome_iff_exists.mpr ⟨k, h⟩)

end Flavor

namespace Wrapper
variable {w : Wrapper}

theorem total_of_rewraps (h : w.rewraps = true) : w.total = false := by
  cases w <;> first | rfl | cases h

theorem lets_of_rewraps (h : w.rewraps = true) (f : Family) : w.lets f = true := by
  cases w <;> first | (cases f <;> rfl) | cases h

end Wrapper

namespace Erased

section
variable {R M V : Ty} {a : Erased R M} {b : Erased M V} {e : Erased R V}

theorem get_of_next (h : a.next b = .ok e) (he : e.flavor.reads = true) : a.flavor.reads = true ∧
    ∃ hb : b.flavor.reads = true, ∀ s p,
      e.get s p = (a.get s p).map fun x => x.andThen fun m => m.elim (.done none) (b.path.find hb s) := by
  obtain ⟨k, hk, rfl⟩ := next_eq_ok.mp h
  obtain ⟨ha, hb⟩ := Flavor.reads_of_compose hk he
  refine ⟨ha, hb, fun s p => ?_⟩
  rw [get_of_reads ha, get_of_reads (e := ⟨k, a.path.compose b.path hk⟩) he]
  exact congrArg Except.ok (a.path.find_compose b.path hk he s p)

theorem getMut_of_next (h : a.next b = .ok e) (he : e.flavor.writes = true) : a.flavor.writes = true ∧
    ∃ hb : b.flavor.writes = true, ∀ s p,
      e.getMut s p = (a.getMut s p).map fun x => x.andThen fun m => m.elim (.done none) (b.path.findMut hb s) := by
  obtain ⟨k, hk, rfl⟩ := next_eq_ok.mp h
  obtain ⟨ha, hb⟩ := Flavor.writes_of_compose hk he
  refine ⟨ha, hb, fun s p => ?_⟩
  rw [getMut_of_writes ha, getMut_of_writes (e := ⟨k, a.path.compose b.path hk⟩) he]
  exact congrArg Except.ok (a.path.findMut_compose b.path hk he s p)

theorem getOwned_of_next (h : a.next b = .ok e) (he : e.flavor.owns = true) : a.flavor.owns = true ∧ ∀ s v,
    e.getOwned s v =
      (a.getOwned s v).map fun x => x.andThen fun z => z.2.elim (.done (z.1, none)) (b.path.handOn z.1) := by
  obtain ⟨k, hk, rfl⟩ := next_eq_ok.mp h
  have ha := Flavor.owns_of_compose hk he
  refine ⟨ha, fun s v => ?_⟩
  rw [getOwned_of_owns ha, getOwned_of_owns (e := ⟨k, a.path.compose b.path hk⟩) he]
  exact congrArg Except.ok (a.path.findOwned_compose b.path hk he s v)

end

/-! ### Behind wrappers -/

/-- What an accessor `a` does that is `e` behind some wrappers: nothing where they do not lead to the payload, and
    there what `e` does. -/
structure Behind {R T V : Ty} (ws : List Wrapper) (e : Erased T V) (a : Erased R V) : Prop where
  family : a.flavor.family = e.flavor.family
  total : a.flavor.total = (ws.all Wrapper.total && e.flavor.total)
  isCase : a.flavor.isCase = (ws.all Wrapper.rewraps && e.flavor.isCase)
  get : a.flavor.reads = true → e.flavor.reads = true ∧ ∀ s p,
    a.get s p = (Wrappers.enter s ws p).elim (.ok (.done none)) (e.get s)
  getMut : a.flavor.writes = true → e.flavor.writes = true ∧ ∀ s p,
    a.getMut s p = (Wrappers.enterMut s ws p).elim (.ok (.done none)) (e.getMut s)
  getOwned : a.flavor.owns = true → e.flavor.owns = true ∧ ∀ s v,
    a.getOwned s v = (Wrappers.giveUp s ws v).2.elim (.ok (.done ((Wrappers.giveUp s ws v).1, none)))
      (e.getOwned (Wrappers.giveUp s ws v).1)

/-- A step that leads from a wrapper to its payload. -/
structure Leads {T : Ty} (w : Wrapper) (f : Family) (step : Erased (.wrap w T) T) : Prop where
  family : step.flavor.family = f
  total : step.flavor.total = w.total
  get : step.flavor.reads = true → ∀ s p, step.get s p = .ok (.done (w.enter s p))
  getMut : step.flavor.writes = true → ∀ s p, step.getMut s p = .ok (.done (w.enterMut s p))
  getOwned : step.flavor.owns = true → ∀ s v, step.getOwned s v = .ok (.done (w.giveUp s v))

section
variable {R T V : Ty} {w : Wrapper} {ws : List Wrapper} {f : Family} {e : Erased T V} {s : Store} {p : Place}
  {v : Value}

theorem isSome_leading? : (leading? w T f).isSome = w.lets f := by
  unfold leading? WrapperPath.step? Wrapper.lets
  cases f <;> cases w.total <;> cases w.lends <;> cases w.lendsMut <;> rfl

theorem leads_of_leading? {step : Erased (.wrap w T) T} (h : leading? w T f = some step) : Leads w f step := by
  unfold leading? WrapperPath.step? at h
  cases total : w.total with
  | true =>
    rw [total] at h
    cases f <;> cases h <;> refine ⟨rfl, total.symm, ?_, ?_, ?_⟩
    all_goals
      first
      | (intro _ s x
         simp only [Wrapper.enter, Wrapper.enterMut, Wrapper.giveUp, total]
         rfl)
      | nofun
  | false =>
    rw [total] at h
    cases f
    all_goals
      simp only [Bool.false_eq_true, ↓reduceIte] at h
      split at h
      · cases h
        refine ⟨rfl, total.symm, ?_, ?_, ?_⟩
        all_goals
          first
          | (intro _ s x
             simp only [Wrapper.enter, Wrapper.enterMut, Wrapper.giveUp, total]
             rfl)
          | nofun
      · cases h

/-- A case accessor that stays one looks into the wrapper first. -/
theorem behind_throughCase (hf : e.flavor.isCase = true) (hw : w.rewraps = true) :
    Behind [w] e ⟨e.flavor, e.path.throughCase w hf⟩ where
  family := rfl
  total := by rw [Flavor.total_of_isCase hf, Bool.and_false]
  isCase := by simp only [List.all_cons, hw, List.all_nil, Bool.and_self, Bool.true_and]
  get hr := by
    refine ⟨hr, fun s p => ?_⟩
    have enter : Wrappers.enter s [w] p = w.read s p := by
      change w.enter s p = _
      rw [Wrapper.enter, Wrapper.total_of_rewraps hw]
      rfl
    rw [get_of_reads (e := ⟨e.flavor, e.path.throughCase w hf⟩) hr, Accessor.find_throughCase, enter]
    cases w.read s p with
    | none => rfl
    | some m => exact (get_of_reads (e := e) hr s m).symm
  getMut hm := by
    refine ⟨hm, fun s p => ?_⟩
    have enter : Wrappers.enterMut s [w] p = w.write s p := by
      change w.enterMut s p = _
      rw [Wrapper.enterMut, Wrapper.total_of_rewraps hw]
      rfl
    rw [getMut_of_writes (e := ⟨e.flavor, e.path.throughCase w hf⟩) hm, Accessor.findMut_throughCase, enter]
    cases w.write s p with
    | none => rfl
    | some m => exact (getMut_of_writes (e := e) hm s m).symm
  getOwned ho := by
    rw [Flavor.not_owns_of_isCase hf] at ho
    cases ho

theorem behind_leading {step : Erased (.wrap w T) T} {a : Erased (.wrap w T) V}
    (apart : ¬(e.flavor.isCase = true ∧ w.rewraps = true)) (hs : leading? w T e.flavor.family = some step)
    (h : step.next e = .ok a) : Behind [w] e a := by
  have leads := leads_of_leading? hs
  obtain ⟨k, hk, joined⟩ := next_eq_ok.mp h
  have flavor : a.flavor = k := congrArg Erased.flavor joined
  constructor
  case family => rw [flavor, Flavor.family_of_compose hk, leads.family]
  case total => rw [flavor, ← Flavor.total_of_compose hk, leads.total, List.all_cons, List.all_nil, Bool.and_true]
  case isCase =>
    rw [flavor, Flavor.not_isCase_of_compose hk]
    simp only [List.all_cons, List.all_nil, Bool.and_true]
    cases hw : w.rewraps <;> cases hf : e.flavor.isCase <;> first | rfl | exact absurd ⟨hf, hw⟩ apart
  case get =>
    intro hr
    obtain ⟨hs, he, eq⟩ := get_of_next h hr
    refine ⟨he, fun s p => ?_⟩
    rw [eq, leads.get hs]
    change _ = (w.enter s p).elim _ _
    cases w.enter s p with
    | none => rfl
    | some m => exact (congrArg Except.ok (Run.done_andThen _ _)).trans (get_of_reads he s m).symm
  case getMut =>
    intro hw
    obtain ⟨hs, he, eq⟩ := getMut_of_next h hw
    refine ⟨he, fun s p => ?_⟩
    rw [eq, leads.getMut hs]
    change _ = (w.enterMut s p).elim _ _
    cases w.enterMut s p with
    | none => rfl
    | some m => exact (congrArg Except.ok (Run.done_andThen _ _)).trans (getMut_of_writes he s m).symm
  case getOwned =>
    intro ho
    obtain ⟨hs, eq⟩ := getOwned_of_next h ho
    have he : e.flavor.owns = true := Flavor.owns_iff.mpr (leads.family.symm.trans (Flavor.owns_iff.mp hs))
    refine ⟨he, fun s v => ?_⟩
    rw [eq, leads.getOwned hs]
    change _ = (w.giveUp s v).2.elim (.ok (.done ((w.giveUp s v).1, none))) (e.getOwned (w.giveUp s v).1)
    rcases w.giveUp s v with ⟨t, m | m⟩
    · rfl
    · rw [Option.elim_some, getOwned_of_owns he, ← e.path.handOn_of_owns he]
      exact congrArg Except.ok (Run.done_andThen _ _)

theorem behind_through {a : Erased (.wrap w T) V} (h : e.through? w = some a) : Behind [w] e a := by
  unfold through? at h
  split at h
  · rename_i stays
    cases h
    exact behind_throughCase stays.1 stays.2
  · rename_i apart
    obtain ⟨step, hs, joined⟩ := Option.bind_eq_some_iff.mp h
    refine behind_leading apart hs ?_
    cases hn : step.next e with
    | error u =>
      rw [hn] at joined
      cases joined
    | ok b =>
      rw [hn] at joined
      cases joined
      rfl

/-- Which wrappers an accessor goes through is decided by its family. -/
theorem isSome_through? : (e.through? w).isSome = w.lets e.flavor.family := by
  unfold through?
  split
  · rename_i stays
    exact (Wrapper.lets_of_rewraps stays.2 _).symm
  · rw [← isSome_leading? (T := T)]
    cases hs : leading? w T e.flavor.family with
    | none => rfl
    | some step =>
      obtain ⟨k, hk⟩ := Flavor.exists_compose (leads_of_leading? hs).family
      rw [Option.bind_some, next_eq_ok.mpr ⟨k, hk, rfl⟩]
      rfl

theorem Behind.nil : Behind [] e e where
  family := rfl
  total := rfl
  isCase := rfl
  get hr := ⟨hr, fun _ _ => rfl⟩
  getMut hw := ⟨hw, fun _ _ => rfl⟩
  getOwned ho := ⟨ho, fun _ _ => rfl⟩

/-- The wrappers outside lead to the inner wrapper, and that leads on. -/
theorem Behind.cons {M : Ty} {b : Erased M V} {a : Erased R V} (inner : Behind [w] e b) (outer : Behind ws b a) :
    Behind (w :: ws) e a where
  family := outer.family.trans inner.family
  total := by
    rw [outer.total, inner.total]
    simp only [List.all_cons, List.all_nil, Bool.and_true, Bool.and_assoc, Bool.and_left_comm]
  isCase := by
    rw [outer.isCase, inner.isCase]
    simp only [List.all_cons, List.all_nil, Bool.and_true, Bool.and_assoc, Bool.and_left_comm]
  get hr := by
    obtain ⟨hb, ends⟩ := outer.get hr
    obtain ⟨he, goes⟩ := inner.get hb
    refine ⟨he, fun s p => (ends s p).trans ?_⟩
    rw [Wrappers.enter]
    cases Wrappers.enter s ws p with
    | none => rfl
    | some m => exact goes s m
  getMut hw := by
    obtain ⟨hb, ends⟩ := outer.getMut hw
    obtain ⟨he, goes⟩ := inner.getMut hb
    refine ⟨he, fun s p => (ends s p).trans ?_⟩
    rw [Wrappers.enterMut]
    cases Wrappers.enterMut s ws p with
    | none => rfl
    | some m => exact goes s m
  getOwned ho := by
    obtain ⟨hb, ends⟩ := outer.getOwned ho
    obtain ⟨he, goes⟩ := inner.getOwned hb
    refine ⟨he, fun s v => (ends s v).trans ?_⟩
    rw [Wrappers.giveUp]
    cases (Wrappers.giveUp s ws v).2 with
    | none => rfl
    | some m => exact goes _ m

theorem behind_throughAll {x : (R : Ty) × Erased R V} (h : e.throughAll? ws = some x) : Behind ws e x.2 := by
  induction ws generalizing T with
  | nil =>
    cases h
    exact .nil
  | cons w ws ih =>
    obtain ⟨b, hb, h⟩ := Option.bind_eq_some_iff.mp h
    exact (behind_through hb).cons (ih h)

theorem isSome_throughAll? : (e.throughAll? ws).isSome = ws.all fun w => w.lets e.flavor.family := by
  induction ws generalizing T with
  | nil => rfl
  | cons w ws ih =>
    rw [throughAll?, List.all_cons, ← isSome_through?]
    cases hb : e.through? w with
    | none => rfl
    | some b =>
      rw [Option.bind_some, ih, (behind_through hb).family]
      rfl

end

/-! ### Joined and adapted -/

/-- Two accessors have the same flavor and do the same everywhere, also to the store. -/
structure Same {R V : Ty} (l r : Erased R V) : Prop where
  flavor : l.flavor = r.flavor
  get : ∀ s p, l.get s p = r.get s p
  getMut : ∀ s p, l.getMut s p = r.getMut s p
  getOwned : ∀ s v, l.getOwned s v = r.getOwned s v
  embed : ∀ v, l.embed v = r.embed v

section
variable {T M V : Ty} {w : Wrapper} {a : Erased T M} {b : Erased M V} {ab : Erased T V} {wa : Erased (.wrap w T) M}
  {l r : Erased (.wrap w T) V}

theorem flavor_of_groupings (hab : a.next b = .ok ab) (hl : Behind [w] ab l) (ha : Behind [w] a wa)
    (hr : wa.next b = .ok r) : l.flavor = r.flavor ∧ l.flavor.isCase = false := by
  obtain ⟨k, abk, rfl⟩ := next_eq_ok.mp hab
  obtain ⟨k', wabk, rfl⟩ := next_eq_ok.mp hr
  have isCase : l.flavor.isCase = false := by rw [hl.isCase, Flavor.not_isCase_of_compose abk, Bool.and_false]
  refine ⟨Flavor.eq_of_family isCase (Flavor.not_isCase_of_compose wabk) ?_ ?_, isCase⟩
  · rw [hl.family, Flavor.family_of_compose abk, Flavor.family_of_compose wabk, ha.family]
  · rw [hl.total, ← Flavor.total_of_compose abk, ← Flavor.total_of_compose wabk, ha.total, Bool.and_assoc]

/-- It makes no difference whether two accessors are joined first and adapted then, or the other way round. -/
theorem same_of_groupings (hab : a.next b = .ok ab) (hl : Behind [w] ab l) (ha : Behind [w] a wa)
    (hr : wa.next b = .ok r) : l.Same r := by
  obtain ⟨flavor, isCase⟩ := flavor_of_groupings hab hl ha hr
  refine ⟨flavor, fun s p => ?_, fun s p => ?_, fun s v => ?_, fun v => ?_⟩
  · by_cases reads : l.flavor.reads = true
    · obtain ⟨hab', goes⟩ := hl.get reads
      obtain ⟨hwa, _, joined⟩ := get_of_next hr (flavor ▸ reads)
      obtain ⟨-, _, inside⟩ := get_of_next hab hab'
      rw [goes, joined, (ha.get hwa).2]
      cases Wrappers.enter s [w] p with
      | none => rfl
      | some m => exact inside s m
    · simp only [get, ← flavor, reads, Bool.false_eq_true, ↓reduceDIte]
  · by_cases writes : l.flavor.writes = true
    · obtain ⟨hab', goes⟩ := hl.getMut writes
      obtain ⟨hwa, _, joined⟩ := getMut_of_next hr (flavor ▸ writes)
      obtain ⟨-, _, inside⟩ := getMut_of_next hab hab'
      rw [goes, joined, (ha.getMut hwa).2]
      cases Wrappers.enterMut s [w] p with
      | none => rfl
      | some m => exact inside s m
    · simp only [getMut, ← flavor, writes, Bool.false_eq_true, ↓reduceDIte]
  · by_cases owns : l.flavor.owns = true
    · obtain ⟨hab', goes⟩ := hl.getOwned owns
      obtain ⟨hwa, joined⟩ := getOwned_of_next hr (flavor ▸ owns)
      obtain ⟨-, inside⟩ := getOwned_of_next hab hab'
      rw [goes, joined, (ha.getOwned hwa).2]
      cases (Wrappers.giveUp s [w] v).2 with
      | none => rfl
      | some m => exact inside _ m
    · simp only [getOwned, ← flavor, owns, Bool.false_eq_true, ↓reduceDIte]
  · simp only [embed, ← flavor, isCase, Bool.false_eq_true, ↓reduceDIte]

end

/-! ### Through any number of wrappers -/

/-- An accessor adapted to some wrappers does in their payload what it did before, and finds nothing where one of
    them has none. -/
structure Adapted {R T V : Ty} (ws : List Wrapper) (e : Erased T V) (a : Erased R V) : Prop where
  family : a.flavor.family = e.flavor.family
  /-- A total accessor stays total only behind wrappers that are never empty. -/
  total : a.flavor.total = (ws.all Wrapper.total && e.flavor.total)
  isCase : a.flavor.isCase = (ws.all Wrapper.rewraps && e.flavor.isCase)
  get : a.flavor.reads = true → ∀ s p o, Ends (a.get s p) o ↔
    (∃ m, Wrappers.enter s ws p = some m ∧ Ends (e.get s m) o) ∨
      Wrappers.payload s.cells ws (s.value p) = none ∧ o = .ok none
  /-- To write, every handle on the way must be the only owner. -/
  getMut : a.flavor.writes = true → ∀ s p o, Ends (a.getMut s p) o ↔
    (∃ m, Wrappers.enter s ws p = some m ∧ (∀ c ∈ Wrappers.handles s ws p, s.owners c = 1) ∧ Ends (e.getMut s m) o) ∨
      (Wrappers.payload s.cells ws (s.value p) = none ∨ ∃ c ∈ Wrappers.handles s ws p, s.owners c ≠ 1) ∧ o = .ok none
  /-- The payload is taken out as it was, although the wrappers around it are emptied before. -/
  getOwned : a.flavor.owns = true → ∀ s v, ∃ t,
    (∀ u, Wrappers.payload s.cells ws v = some u → Store.SamePointee u s.cells t.cells) ∧
    ∀ o, Ends (a.getOwned s v) o ↔
      (∃ u, Wrappers.payload s.cells ws v = some u ∧ Ends (e.getOwned t u) o) ∨
        Wrappers.payload s.cells ws v = none ∧ o = .ok (t, none)

theorem ends_elim {α β : Type} {x : Option α} {f : α → Except Unsupported (Run β)} {z : β} {o : Except String β} :
    Ends (x.elim (.ok (.done z)) f) o ↔ (∃ m, x = some m ∧ Ends (f m) o) ∨ x = none ∧ o = .ok z := by
  cases x with
  | none => simp [ends_ok, Run.done, eq_comm]
  | some m => simp

section
variable {R T V : Ty} {ws : List Wrapper} {e : Erased T V} {a : Erased R V}

theorem Behind.adapted (h : Behind ws e a) (lets : ∀ w ∈ ws, w.lets e.flavor.family = true) : Adapted ws e a where
  family := h.family
  total := h.total
  isCase := h.isCase
  get hr s p o := by
    rw [(h.get hr).2, ends_elim, ← Wrappers.map_value_enter, Option.map_eq_none_iff]
  getMut hw s p o := by
    obtain ⟨he, eq⟩ := h.getMut hw
    have family : e.flavor.family = .write := by
      revert he
      cases e.flavor <;> simp [Flavor.writes, Flavor.family]
    rw [family] at lets
    rw [eq, ends_elim, Wrappers.enterMut_eq_none_iff lets, ← Wrappers.map_value_enter, Option.map_eq_none_iff]
    simp only [Wrappers.enterMut_eq_some_iff lets, and_assoc]
  getOwned ho s v := by
    have took : s.Took (Wrappers.giveUp s ws v) (Wrappers.payload s.cells ws v) := Wrappers.took
    refine ⟨(Wrappers.giveUp s ws v).1, took.pointees, fun o => ?_⟩
    rw [(h.getOwned ho).2, ends_elim, took.found]

end

/-- Adapting goes along with joining, and through all wrappers it is their steps one after the other. -/
theorem through_homomorphism :
    (∀ {T M V : Ty} (w : Wrapper) (a : Erased T M) (b : Erased M V) (ab : Erased T V), a.next b = .ok ab →
      (ab.through? w).isSome = (a.through? w).isSome ∧
      ∀ wa, a.through? w = some wa → ∃ l r, ab.through? w = some l ∧ wa.next b = .ok r ∧ l.Same r) ∧
    ∀ {T V : Ty} (e : Erased T V) (ws : List Wrapper),
      (e.throughAll? ws).isSome = (ws.all fun w => w.lets e.flavor.family) ∧
      ∀ x, e.throughAll? ws = some x → Adapted ws e x.2 := by
  constructor
  · intro T M V w a b ab hab
    obtain ⟨k, hk, joined⟩ := next_eq_ok.mp hab
    have family : ab.flavor.family = a.flavor.family := by rw [joined, Flavor.family_of_compose hk]
    have exist : (ab.through? w).isSome = (a.through? w).isSome := by rw [isSome_through?, isSome_through?, family]
    refine ⟨exist, fun wa hwa => ?_⟩
    obtain ⟨l, hl⟩ := Option.isSome_iff_exists.mp (exist.trans (by rw [hwa]; rfl))
    have behind := behind_through hwa
    obtain ⟨k', hk'⟩ := Flavor.exists_compose_of_family hk behind.family
    have hr := next_eq_ok.mpr ⟨k', hk', rfl⟩
    exact ⟨l, _, hl, hr, same_of_groupings hab (behind_through hl) behind hr⟩
  · intro T V e ws
    refine ⟨isSome_throughAll?, fun x hx => (behind_throughAll hx).adapted fun w hw => ?_⟩
    have all : (ws.all fun w => w.lets e.flavor.family) = true := by rw [← isSome_throughAll?, hx]; rfl
    exact List.all_eq_true.mp all w hw

/-- The first coordinate of a point that a reading may be, in an optional reading: the case accessor stays one until
    the other one is joined to it. A pointer to the optional reading writes the coordinate as its only owner. -/
theorem through_homomorphism_point :
    ∃ (a : Erased (.plain "w::Reading") (.plain "w::Point")) (b : Erased (.plain "w::Point") (.plain "int"))
      (ab : Erased (.plain "w::Reading") (.plain "int"))
      (wa : Erased (.wrap .optional (.plain "w::Reading")) (.plain "w::Point"))
      (l r : Erased (.wrap .optional (.plain "w::Reading")) (.plain "int"))
      (x : (R : Ty) × Erased R (.plain "int")),
      a.next b = .ok ab ∧ a.through? .optional = some wa ∧ wa.flavor = .caseWritable ∧
      ab.through? .optional = some l ∧ wa.next b = .ok r ∧ l.flavor = .failableWritable ∧ l.Same r ∧
      ab.throughAll? [.optional, .shared] = some x ∧ Adapted [.optional, .shared] ab x.2 ∧
      Ends (x.2.getMut ⟨[.shared 0], [.holding (.alternative 1 (.items [.int 3, .int 4]))], []⟩ (.slot 0))
        (.ok (some ⟨.cell 0, [.inside, .inside, .item 0]⟩)) ∧
      Ends (x.2.getMut ⟨[.shared 0, .shared 0], [.holding (.alternative 1 (.items [.int 3, .int 4]))], []⟩ (.slot 0))
        (.ok none) := by
  let a := Erased.of (UnionCase.caseW ⟨"at", 1, .single (.plain "w::Point"), .all⟩ (.plain "w::Reading"))
  let b := Erased.of (Member.w ⟨"x", 0, .plain "int", .all⟩ (.plain "w::Point"))
  let ab : Erased (.plain "w::Reading") (.plain "int") := ⟨.failableWritable, a.path.compose b.path rfl⟩
  obtain ⟨-, adapt⟩ := through_homomorphism.1 .optional a b ab rfl
  obtain ⟨l, r, hl, hr, same⟩ := adapt _ rfl
  obtain ⟨-, adapted⟩ := through_homomorphism.2 ab [.optional, .shared]
  have flavor : l.flavor = .failableWritable := by
    cases hl
    rfl
  exact ⟨a, b, ab, _, l, r, _, rfl, rfl, rfl, hl, hr, flavor, same, rfl, adapted _ rfl, ⟨_, rfl, rfl⟩, ⟨_, rfl, rfl⟩⟩

end Erased
end Accessors
