import Accessors.Proofs.Accessor.Chain
import Accessors.Proofs.Accessor.Local

/-! # Legs in turn

A joined accessor ends as its legs do when they are used one after the other, each on what the one before found:
with what the last leg finds, or as the first leg ends that finds nothing or breaks off, whatever comes after it.
So it makes no difference how three accessors are grouped. Only where two borrowing accessors follow an owning one
does the grouping decide what the last one is given, a value inside a larger one or the same value on its own. The
rest of the larger one then still counts among the owners of what the two share. -/

namespace Accessors

/-- A use that is supported ends with an outcome. -/
def Ends {α : Type} (use : Except Unsupported (Run α)) (o : Except String α) : Prop :=
  ∃ r, use = .ok r ∧ r.outcome = o

theorem ends_ok {α : Type} {r : Run α} {o : Except String α} : Ends (.ok r) o ↔ r.outcome = o := by
  simp [Ends]

/-! ### One step after another -/

namespace Run
variable {α : Type}

/-- The second step ends the run if the first one found something; otherwise the first one does. -/
theorem outcome_elim {x : Run (Option α)} {f : α → Run (Option α)} {o : Except String (Option α)} :
    (x.andThen fun m => m.elim (.done none) f).outcome = o ↔
      (∃ m, x.outcome = .ok (some m) ∧ (f m).outcome = o) ∨ x.outcome = o ∧ ∀ m, o ≠ .ok (some m) := by
  obtain ⟨calls, outcome⟩ := x
  rcases outcome with e | m | m
  · simp only [andThen, reduceCtorEq, false_and, exists_false, false_or]
    constructor
    · rintro rfl
      exact ⟨rfl, by simp⟩
    · exact And.left
  · simp only [andThen, done, Option.elim_none, reduceCtorEq, Except.ok.injEq, false_and, exists_false, false_or]
    constructor
    · rintro rfl
      exact ⟨rfl, by simp⟩
    · exact And.left
  · simp only [andThen, Option.elim_some, Except.ok.injEq, Option.some.injEq, exists_eq_left']
    constructor
    · exact .inl
    · rintro (h | ⟨ho, hn⟩)
      · exact h
      · exact absurd ho.symm (hn m)

theorem outcome_elim_store {x : Run (Store × Option α)} {f : Store → α → Run (Store × Option α)}
    {o : Except String (Store × Option α)} :
    (x.andThen fun z => z.2.elim (.done (z.1, none)) (f z.1)).outcome = o ↔
      (∃ t m, x.outcome = .ok (t, some m) ∧ (f t m).outcome = o) ∨ x.outcome = o ∧ ∀ t m, o ≠ .ok (t, some m) := by
  obtain ⟨calls, outcome⟩ := x
  rcases outcome with e | ⟨t, m | m⟩
  · simp only [andThen, reduceCtorEq, false_and, exists_false, false_or]
    constructor
    · rintro rfl
      exact ⟨rfl, by simp⟩
    · exact And.left
  · simp only [andThen, done, Option.elim_none, Except.ok.injEq, Prod.mk.injEq, reduceCtorEq, and_false, false_and,
      exists_false, false_or]
    constructor
    · rintro rfl
      exact ⟨rfl, by simp⟩
    · exact And.left
  · simp only [andThen, Option.elim_some, Except.ok.injEq, Prod.mk.injEq, Option.some.injEq]
    constructor
    · exact fun h => .inl ⟨t, m, ⟨rfl, rfl⟩, h⟩
    · rintro (⟨_, _, ⟨rfl, rfl⟩, h⟩ | ⟨ho, hn⟩)
      · exact h
      · exact absurd ho.symm (hn t m)

theorem some_or_error {x : Run (Option α)} (h : x.outcome ≠ .ok none) :
    (∃ a, x.outcome = .ok (some a)) ∨ ∃ m, x.outcome = .error m := by
  obtain ⟨calls, outcome⟩ := x
  rcases outcome with m | a | a
  · exact .inr ⟨m, rfl⟩
  · exact absurd rfl h
  · exact .inl ⟨a, rfl⟩

end Run

namespace Erased
variable {R M V : Ty} {e : Erased M V} {s t : Store} {m : Value} {p : Place}

/-- How a leg ends that is given a value in hand: an owning leg takes its value out of it, a writing leg moves out
    what it finds there, and a reading leg copies what it finds. -/
def HandsOn (e : Erased M V) (s : Store) (m : Value) (o : Except String (Store × Option Value)) : Prop :=
  match e.flavor.family with
  | .own => Ends (e.getOwned s m) o
  | .write => ∃ q, Ends (e.getMut (s.push m).1 (s.push m).2) q ∧ o = q.map fun q =>
      ((q.elim (s.push m).1 fun q => ((s.push m).1.takeOut q).1).pop, q.map (s.push m).1.value)
  | .read => ∃ q, Ends (e.get (s.push m).1 (s.push m).2) q ∧ o = q.map fun q => (s, q.map (s.push m).1.value)

theorem outcome_map_iff {α β : Type} {x : Run α} {f : α → β} {o : Except String β} :
    (x.map f).outcome = o ↔ ∃ y, x.outcome = y ∧ o = y.map f := by
  obtain ⟨calls, outcome⟩ := x
  cases outcome <;> simp [Run.map, Run.andThen, Run.done, Except.map, eq_comm]

theorem handOn_iff {o : Except String (Store × Option Value)} :
    (e.path.handOn s m).outcome = o ↔ e.HandsOn s m o := by
  unfold HandsOn
  split
  · rename_i own
    have ho : e.flavor.owns = true := Flavor.owns_iff.mpr own
    rw [Accessor.handOn_of_owns _ ho, getOwned_of_owns ho, ends_ok]
  · rename_i write
    have hw : e.flavor.writes = true := by revert write; cases e.flavor <;> simp [Flavor.family, Flavor.writes]
    rw [Accessor.handOn_of_writes _ hw, outcome_map_iff, getMut_of_writes hw]
    simp only [ends_ok]
  · rename_i read
    have hr : e.flavor.reads = true := by revert read; cases e.flavor <;> simp [Flavor.family, Flavor.reads]
    have hw : e.flavor.writes = false := by revert read; cases e.flavor <;> simp [Flavor.family, Flavor.writes]
    rw [Accessor.handOn_of_reads _ hr hw, outcome_map_iff, get_of_reads hr]
    simp only [ends_ok]

end Erased

/-! ### Chains -/

namespace Chain
variable {R M V : Ty} {c : Chain R V} {e : Erased R V} {s t : Store} {p : Place} {v : Value}

/-- A way of using borrowing accessors, to read or to write. -/
abbrev Use := {R V : Ty} → Erased R V → Store → Place → Except Unsupported (Run (Option Place))

/-- How legs end that lend a place in turn: the last one ends them if the ones before found a place for it, and
    otherwise the ones before do. -/
def Lends (use : Use) (s : Store) (p : Place) : {V : Ty} → Chain R V → Except String (Option Place) → Prop
  | _, leg e, o => Ends (use e s p) o
  | _, next c e, o => (∃ m, c.Lends use s p (.ok (some m)) ∧ Ends (use e s m) o) ∨
      c.Lends use s p o ∧ ∀ m, o ≠ .ok (some m)

/-- How legs end that hand a value on in turn, the first of which takes it out of a root. -/
def Takes (s : Store) (v : Value) : {V : Ty} → Chain R V → Except String (Store × Option Value) → Prop
  | _, leg e, o => Ends (e.getOwned s v) o
  | _, next c e, o => (∃ t m, c.Takes s v (.ok (t, some m)) ∧ e.HandsOn t m o) ∨
      c.Takes s v o ∧ ∀ t m, o ≠ .ok (t, some m)

/-- A chain begins with another one. -/
inductive Begins : {M V : Ty} → Chain R M → Chain R V → Prop
  | all {V : Ty} (c : Chain R V) : Begins c c
  | next {M N V : Ty} {c : Chain R M} {d : Chain R N} (h : Begins c d) (e : Erased N V) : Begins c (d.next e)

theorem ends_get (h : c.join = .ok e) (hr : e.flavor.reads = true) {o : Except String (Option Place)} :
    Ends (e.get s p) o ↔ c.Lends Erased.get s p o := by
  induction c generalizing o with
  | leg e =>
    cases h
    rfl
  | next c b ih =>
    obtain ⟨a, ha, hn⟩ := join_next_eq_ok.mp h
    obtain ⟨k, hk, rfl⟩ := Erased.next_eq_ok.mp hn
    obtain ⟨hra, hrb⟩ := Flavor.reads_of_compose hk hr
    have legs := fun {o} => ih ha hra (o := o)
    rw [Erased.get_of_reads hra] at legs
    simp only [Lends, ← legs, Erased.get_of_reads hr, Erased.get_of_reads hrb, ends_ok]
    rw [Accessor.find_compose, Run.outcome_elim]

theorem ends_getMut (h : c.join = .ok e) (hw : e.flavor.writes = true) {o : Except String (Option Place)} :
    Ends (e.getMut s p) o ↔ c.Lends Erased.getMut s p o := by
  induction c generalizing o with
  | leg e =>
    cases h
    rfl
  | next c b ih =>
    obtain ⟨a, ha, hn⟩ := join_next_eq_ok.mp h
    obtain ⟨k, hk, rfl⟩ := Erased.next_eq_ok.mp hn
    obtain ⟨hwa, hwb⟩ := Flavor.writes_of_compose hk hw
    have legs := fun {o} => ih ha hwa (o := o)
    rw [Erased.getMut_of_writes hwa] at legs
    simp only [Lends, ← legs, Erased.getMut_of_writes hw, Erased.getMut_of_writes hwb, ends_ok]
    rw [Accessor.findMut_compose, Run.outcome_elim]

theorem ends_getOwned (h : c.join = .ok e) (ho : e.flavor.owns = true) {o : Except String (Store × Option Value)} :
    Ends (e.getOwned s v) o ↔ c.Takes s v o := by
  induction c generalizing o with
  | leg e =>
    cases h
    rfl
  | next c b ih =>
    obtain ⟨a, ha, hn⟩ := join_next_eq_ok.mp h
    obtain ⟨k, hk, rfl⟩ := Erased.next_eq_ok.mp hn
    have hoa := Flavor.owns_of_compose hk ho
    have legs := fun {o} => ih ha hoa (o := o)
    rw [Erased.getOwned_of_owns hoa] at legs
    simp only [Takes, ← legs, Erased.getOwned_of_owns ho, ends_ok]
    rw [Accessor.findOwned_compose, Run.outcome_elim_store]
    simp only [Erased.handOn_iff]

theorem Begins.lends_none {d : Chain R M} (h : d.Begins c) {use : Use} (absent : d.Lends use s p (.ok none)) :
    c.Lends use s p (.ok none) := by
  induction h with
  | all => exact absent
  | next _ _ ih => exact .inr ⟨ih absent, fun _ h => nomatch h⟩

theorem Begins.takes_none {d : Chain R M} (h : d.Begins c) (absent : d.Takes s v (.ok (t, none))) :
    c.Takes s v (.ok (t, none)) := by
  induction h with
  | all => exact absent
  | next _ _ ih => exact .inr ⟨ih absent, fun _ _ h => nomatch h⟩

/-- An accessor does what the legs of a chain do in turn. -/
structure InTurn (c : Chain R V) (e : Erased R V) : Prop where
  get : e.flavor.reads = true → ∀ s p o, Ends (e.get s p) o ↔ c.Lends Erased.get s p o
  getMut : e.flavor.writes = true → ∀ s p o, Ends (e.getMut s p) o ↔ c.Lends Erased.getMut s p o
  getOwned : e.flavor.owns = true → ∀ s v o, Ends (e.getOwned s v) o ↔ c.Takes s v o
  /-- Where a leg finds nothing, it makes no difference which legs come after it. -/
  absent : ∀ {M : Ty} (d : Chain R M), d.Begins c →
    (e.flavor.reads = true → ∀ s p, d.Lends Erased.get s p (.ok none) → Ends (e.get s p) (.ok none)) ∧
    (e.flavor.writes = true → ∀ s p, d.Lends Erased.getMut s p (.ok none) → Ends (e.getMut s p) (.ok none)) ∧
    (e.flavor.owns = true → ∀ s v t, d.Takes s v (.ok (t, none)) → Ends (e.getOwned s v) (.ok (t, none)))
  /-- A total accessor always finds something, unless a leg breaks off. -/
  total : e.flavor.total = true →
    (e.flavor.reads = true → ∀ s p, (∃ q, Ends (e.get s p) (.ok (some q))) ∨
      ∃ m, c.Lends Erased.get s p (.error m)) ∧
    (e.flavor.writes = true → ∀ s p, (∃ q, Ends (e.getMut s p) (.ok (some q))) ∨
      ∃ m, c.Lends Erased.getMut s p (.error m)) ∧
    (e.flavor.owns = true → ∀ s v, (∃ t u, Ends (e.getOwned s v) (.ok (t, some u))) ∨
      ∃ m, c.Takes s v (.error m))

theorem inTurn (h : c.join = .ok e) : c.InTurn e where
  get hr _ _ _ := ends_get h hr
  getMut hw _ _ _ := ends_getMut h hw
  getOwned ho _ _ _ := ends_getOwned h ho
  absent _ hd := ⟨fun hr _ _ none => (ends_get h hr).mpr (hd.lends_none none),
    fun hw _ _ none => (ends_getMut h hw).mpr (hd.lends_none none),
    fun ho _ _ _ none => (ends_getOwned h ho).mpr (hd.takes_none none)⟩
  total total := by
    refine ⟨fun hr s p => ?_, fun hw s p => ?_, fun ho s v => ?_⟩
    · simp only [← ends_get h hr, Erased.get_of_reads hr, ends_ok]
      exact Run.some_or_error (e.path.find_of_total total hr s p)
    · simp only [← ends_getMut h hw, Erased.getMut_of_writes hw, ends_ok]
      exact Run.some_or_error (e.path.findMut_of_total total hw s p)
    · have found := fun t => e.path.findOwned_of_total total ho s t v
      simp only [← ends_getOwned h ho, Erased.getOwned_of_owns ho, ends_ok]
      generalize (e.path.findOwned ho s v).outcome = o at found ⊢
      rcases o with m | ⟨t, u | u⟩
      · exact .inr ⟨m, rfl⟩
      · exact absurd rfl (found t)
      · exact .inl ⟨t, u, rfl⟩

end Chain

/-! ### Grouping -/

namespace Erased
variable {R M N V : Ty} {a : Erased R M} {b : Erased M N} {c : Erased N V}

/-- What an accessor takes out of a root, and what another one then finds in it for writing, shares nothing with the
    rest of what was taken. -/
def TakesApart (a : Erased R M) (b : Erased M N) (s : Store) (v : Value) : Prop :=
  ∀ t m, Ends (a.getOwned s v) (.ok (t, some m)) → b.path.Apart t m

/-- Two accessors do the same: they lend the same places, and take the same values out of the roots in question. -/
structure Alike (roots : Store → Value → Prop) (l r : Erased R V) : Prop where
  flavor : l.flavor = r.flavor
  get : ∀ s p, l.get s p = r.get s p
  getMut : ∀ s p, l.getMut s p = r.getMut s p
  getOwned : ∀ s v, roots s v → (l.getOwned s v).map (·.map Prod.snd) = (r.getOwned s v).map (·.map Prod.snd)

theorem alike_of_groupings {x : Erased R N} {y : Erased M V} {l r : Erased R V} (hx : a.next b = .ok x)
    (hl : x.next c = .ok l) (hy : b.next c = .ok y) (hr : a.next y = .ok r)
    (hc : a.flavor.owns = true → b.flavor.owns = false → c.path.Local) : l.Alike (a.TakesApart b) r := by
  obtain ⟨kx, abx, rfl⟩ := next_eq_ok.mp hx
  obtain ⟨kl, xcl, rfl⟩ := next_eq_ok.mp hl
  obtain ⟨ky, bcy, rfl⟩ := next_eq_ok.mp hy
  obtain ⟨kr, ayr, rfl⟩ := next_eq_ok.mp hr
  cases Flavor.compose_assoc abx xcl bcy ayr
  refine ⟨rfl, fun s p => ?_, fun s p => ?_, fun s v apart => ?_⟩
  · by_cases reads : kl.reads = true
    · rw [get_of_reads reads, get_of_reads reads]
      exact congrArg _ (Accessor.find_assoc abx xcl bcy ayr reads s p)
    · simp only [get, reads, Bool.false_eq_true, ↓reduceDIte]
  · by_cases writes : kl.writes = true
    · rw [getMut_of_writes writes, getMut_of_writes writes]
      exact congrArg _ (Accessor.findMut_assoc abx xcl bcy ayr writes s p)
    · simp only [getMut, writes, Bool.false_eq_true, ↓reduceDIte]
  · by_cases owns : kl.owns = true
    · rw [getOwned_of_owns owns, getOwned_of_owns owns]
      have hc := hc (Flavor.owns_of_compose ayr owns)
      refine congrArg Except.ok (Accessor.findOwned_assoc abx xcl bcy ayr owns hc s v fun hf t m hm => ?_)
      exact apart t m (getOwned_of_owns hf s v ▸ ends_ok.mpr hm)
    · simp only [getOwned, owns, Bool.false_eq_true, ↓reduceDIte]

end Erased

namespace Chain
variable {R V : Ty} {c : Chain R V} {e : Erased R V}

/-- Every leg is declared by a wrapper, a member or a case. -/
def Declared : {V : Ty} → Chain R V → Prop
  | _, leg e => e.Declared
  | _, next c e => c.Declared ∧ e.Declared

/-- Declared legs that are joined stay with what the value they are given has inside or reaches. -/
theorem inward_of_join (h : c.join = .ok e) (legs : c.Declared) : e.path.Inward := by
  induction c with
  | leg e =>
    cases h
    exact Erased.Declared.inward legs
  | next c b ih =>
    obtain ⟨a, ha, hn⟩ := join_next_eq_ok.mp h
    obtain ⟨k, hk, rfl⟩ := Erased.next_eq_ok.mp hn
    exact (ih ha legs.1).compose legs.2.inward hk

end Chain

/-- Legs that are joined are used in turn, and it makes no difference how three of them are grouped, as long as the
    last one looks at nothing but the value it is given, as declared legs do. -/
theorem Chain.join_inTurn :
    (∀ {R V : Ty} {c : Chain R V} {e : Erased R V}, c.join = .ok e → c.InTurn e) ∧
    (∀ {R M N V : Ty} {a : Erased R M} {b : Erased M N} {c : Erased N V} {x : Erased R N} {y : Erased M V}
      {l r : Erased R V}, a.next b = .ok x → x.next c = .ok l → b.next c = .ok y → a.next y = .ok r →
      (a.flavor.owns = true → b.flavor.owns = false → c.path.Local) → l.Alike (a.TakesApart b) r) ∧
    ∀ {R V : Ty} {c : Chain R V} {e : Erased R V}, c.join = .ok e → c.Declared → e.path.Local :=
  ⟨inTurn, Erased.alike_of_groupings, fun h legs => (inward_of_join h legs).isLocal⟩

/-- A pointee with one owner is moved out of two tagged values around its handle, in either grouping. -/
theorem Chain.join_inTurn_tagged : ∃ (a : Erased (.wrap (.tagged (.atom "w::outer"))
      (.wrap (.tagged (.atom "w::inner")) (.wrap .shared (.plain "int"))))
      (.wrap (.tagged (.atom "w::inner")) (.wrap .shared (.plain "int"))))
    (b : Erased (.wrap (.tagged (.atom "w::inner")) (.wrap .shared (.plain "int"))) (.wrap .shared (.plain "int")))
    (c : Erased (.wrap .shared (.plain "int")) (.plain "int")) (x : Erased _ _) (y : Erased _ _) (l : Erased _ _)
    (r : Erased _ _), a.next b = .ok x ∧ x.next c = .ok l ∧ b.next c = .ok y ∧ a.next y = .ok r ∧
      (((leg a).next b).next c).InTurn l ∧ l.Alike (a.TakesApart b) r ∧
      a.TakesApart b ⟨[], [.int 5], []⟩ (.holding (.holding (.shared 0))) ∧
      Ends (l.getOwned ⟨[], [.int 5], []⟩ (.holding (.holding (.shared 0))))
        (.ok (⟨[], [.moved], []⟩, some (.int 5))) := by
  let a := Erased.of (WrapperPath.o ⟨.tagged (.atom "w::outer"),
    .wrap (.tagged (.atom "w::inner")) (.wrap .shared (.plain "int"))⟩)
  let b := Erased.of (WrapperPath.w ⟨.tagged (.atom "w::inner"), .wrap .shared (.plain "int")⟩)
  let c := Erased.of (WrapperPath.fw ⟨.shared, .plain "int"⟩)
  have hc : c.path.Local :=
    join_inTurn.2.2 (c := leg c) rfl (.step (k := ⟨.shared, .plain "int"⟩) (f := .failableWritable) rfl)
  have apart : a.TakesApart b ⟨[], [.int 5], []⟩ (.holding (.holding (.shared 0))) := by
    rintro t m ⟨_, taken, ends⟩
    cases taken
    cases ends
    refine Accessor.apart_of_disjoint fun _ q hq => ?_
    cases hq
    exact ⟨rfl, fun d _ => Store.not_reaches_of_no_handles fun _ => rfl⟩
  refine ⟨a, b, c, _, _, _, _, rfl, rfl, rfl, rfl, join_inTurn.1 rfl,
    join_inTurn.2.1 rfl rfl rfl rfl fun _ _ => hc, apart, ?_⟩
  rw [Erased.getOwned_of_owns rfl, ends_ok]
  rfl

/-- Where two handles own one cell, the grouping decides whether what it holds can be moved out through one of them:
    taken out first, the handle is the only owner left, while in its place it is one of two. It decides as well what
    an accessor is given that looks where its value is. -/
theorem Chain.grouping_decides :
    (∃ (a : Erased (.wrap (.tagged (.atom "w::owner")) (.plain "w::Pair")) (.plain "w::Pair"))
        (b : Erased (.plain "w::Pair") (.wrap .localShared (.plain "int")))
        (c : Erased (.wrap .localShared (.plain "int")) (.plain "int")) (x : Erased _ _) (y : Erased _ _)
        (l : Erased _ _) (r : Erased _ _),
      (((leg a).next b).next c).Declared ∧ a.next b = .ok x ∧ x.next c = .ok l ∧ b.next c = .ok y ∧ a.next y = .ok r ∧
      Ends (l.getOwned ⟨[], [.int 5], []⟩ (.holding (.items [.shared 0, .shared 0])))
        (.ok (⟨[], [.moved], []⟩, some (.int 5))) ∧
      Ends (r.getOwned ⟨[], [.int 5], []⟩ (.holding (.items [.shared 0, .shared 0])))
        (.ok (⟨[], [.int 5], []⟩, none))) ∧
    ∃ (a : Erased (.wrap (.tagged (.atom "w::owner")) (.plain "w::Pair")) (.plain "w::Pair"))
        (b : Erased (.plain "w::Pair") (.plain "int")) (c : Erased (.plain "int") (.plain "int")) (x : Erased _ _)
        (y : Erased _ _) (l : Erased _ _) (r : Erased _ _),
      (∀ s v, a.TakesApart b s v) ∧ a.next b = .ok x ∧ x.next c = .ok l ∧ b.next c = .ok y ∧ a.next y = .ok r ∧
      Ends (l.getOwned ⟨[], [], []⟩ (.holding (.items [.int 5, .int 6]))) (.ok (⟨[], [], []⟩, some (.int 5))) ∧
      Ends (r.getOwned ⟨[], [], []⟩ (.holding (.items [.int 5, .int 6]))) (.ok (⟨[], [], []⟩, none)) := by
  let a := Erased.of (WrapperPath.o ⟨.tagged (.atom "w::owner"), .plain "w::Pair"⟩)
  constructor
  · let m : Member := ⟨"first", 0, .wrap .localShared (.plain "int"), .all⟩
    let b := Erased.of (m.w (.plain "w::Pair"))
    let c := Erased.of (WrapperPath.fw ⟨.localShared, .plain "int"⟩)
    have declared : (((leg a).next b).next c).Declared :=
      ⟨⟨.step (k := ⟨.tagged (.atom "w::owner"), .plain "w::Pair"⟩) (f := .owned) rfl,
        .member (m := m) (f := .writable) rfl⟩, .step (k := ⟨.localShared, .plain "int"⟩) (f := .failableWritable) rfl⟩
    refine ⟨a, b, c, _, _, _, _, declared, rfl, rfl, rfl, rfl, ?_, ?_⟩
    · rw [Erased.getOwned_of_owns rfl, ends_ok]
      rfl
    · rw [Erased.getOwned_of_owns rfl, ends_ok]
      rfl
  · let b : Erased (.plain "w::Pair") (.plain "int") := .of (.readable fun _ p => .done (p.item 0))
    -- Finds its value only where the value stands alone.
    let c : Erased (.plain "int") (.plain "int") :=
      .of (.failableReadable fun _ p => .done (if p.path = [] then some p else none))
    refine ⟨a, b, c, _, _, _, _, fun s v => ?_, rfl, rfl, rfl, rfl, ?_, ?_⟩
    · rintro t m - hf
      cases hf
    · rw [Erased.getOwned_of_owns rfl, ends_ok]
      rfl
    · rw [Erased.getOwned_of_owns rfl, ends_ok]
      rfl

end Accessors
