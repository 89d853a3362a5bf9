import Accessors.Guard
import Accessors.Proofs.Accessor.InTurn
import Accessors.Proofs.Store.Agreement
import Accessors.Proofs.Store.Frame

/-! # One access to a guarded value

An access gets to a guarded value, asks for its lock, looks whether it is poisoned and looks for a value in it, in
this order. The first of these that fails is the answer. The function is run once if none of them fails, and not at
all otherwise. A reader leaves the store, and a writer changes it at the place it is run at.

To get to the guarded value, an access follows an accessor or a handle, or one after the other. A handle that owns
nothing leads nowhere, and one that can only be read still leads to a value that can be written. -/

namespace Accessors.Guard
variable {α : Type} {use : Use} {s : Store} {g h p q r : Place} {b : Bool} {o : Except String (Option Place)}

/-! ### Getting there -/

/-- What a place comes to as a handle: the guarded value that it owns, if it owns one. -/
inductive Owned (s : Store) (p : Place) : Option Place → Prop where
  | owner {c : Nat} (owns : s.get? p = some (.shared c)) : Owned s p (some (.cell c))
  | null (nothing : ∀ c, s.get? p ≠ some (.shared c)) : Owned s p none

section
variable {R V : Ty} {e : Erased R V} {q : Option Place}

/-- How an accessor ends that is to lend for a use. What it cannot lend for writing it lends for reading. -/
def Lends (use : Use) (e : Erased R V) (s : Store) (p : Place) (o : Except String (Option Place)) : Prop :=
  if use = .write ∧ e.flavor.writes = true then Ends (e.getMut s p) o else Ends (e.get s p) o

theorem owned_iff : Owned s p q ↔ behindHandle s p = q := by
  unfold behindHandle
  constructor
  · intro h
    cases h with
    | owner owns => rw [Store.handle?_eq_some.mpr owns, Option.map_some]
    | null nothing =>
      rw [Option.map_eq_none_iff, Option.eq_none_iff_forall_ne_some]
      exact fun c hc => nothing c (Store.handle?_eq_some.mp hc)
  · rintro rfl
    cases hc : s.handle? p with
    | some c => exact .owner (Store.handle?_eq_some.mp hc)
    | none =>
      refine .null fun c hp => ?_
      cases hc.symm.trans (Store.handle?_eq_some.mpr hp)

theorem behind_of_ne (hV : ∀ T, V ≠ .wrap .shared T) (s : Store) (p : Place) : behind V s p = some p := by
  unfold behind
  split
  · exact absurd rfl (hV _)
  · rfl

end

namespace Start

/-- How it ends to go from a start to the guarded value: what is found there is the guarded value, or a handle that
    owns it. -/
inductive Reaches (use : Use) (s : Store) : Start → Except String (Option Place) → Prop where
  | value (g : Place) : Reaches use s (value g) (.ok (some g))
  | handle {p : Place} {q : Option Place} (owned : Owned s p q) : Reaches use s (handle p) (.ok q)
  | strayed {R V : Ty} {e : Erased R V} {p : Place} {m : String} (lends : Lends use e s p (.error m)) :
      Reaches use s (root e p) (.error m)
  | lost {R V : Ty} {e : Erased R V} {p : Place} (lends : Lends use e s p (.ok none)) :
      Reaches use s (root e p) (.ok none)
  | found {R V : Ty} {e : Erased R V} {p q : Place} (lends : Lends use e s p (.ok (some q)))
      (direct : ∀ T, V ≠ .wrap .shared T) : Reaches use s (root e p) (.ok (some q))
  | behind {R T : Ty} {e : Erased R (.wrap .shared T)} {p q : Place} {g : Option Place}
      (lends : Lends use e s p (.ok (some q))) (owned : Owned s q g) : Reaches use s (root e p) (.ok g)

/-- What can be reached for a use: of what an accessor leads to, all that it lends for the use, and a handle that it
    lends for reading also to write what the handle owns. -/
def Offered (use : Use) : Start → Prop
  | value _ | handle _ => True
  | @root _ V e _ =>
    match use with
    | .read => e.flavor.reads = true
    | .write => e.flavor.writes = true ∨ e.flavor.reads = true ∧ ∃ T, V = .wrap .shared T

section
variable {R V : Ty} {e : Erased R V} {find : Borrow} {a : Start}

theorem reaches_root_iff (lends : ∀ o, Lends use e s p o ↔ (find s p).outcome = o) :
    (root e p).Reaches use s o ↔ (onTo V find s p).outcome = o := by
  rw [onTo, Erased.outcome_map_iff]
  constructor
  · intro h
    cases h with
    | strayed h => exact ⟨_, (lends _).mp h, rfl⟩
    | lost h => exact ⟨_, (lends _).mp h, rfl⟩
    | found h direct => exact ⟨_, (lends _).mp h, by simp only [Except.map, Option.bind_some, behind_of_ne direct]⟩
    | behind h owned => exact ⟨_, (lends _).mp h, congrArg Except.ok (owned_iff.mp owned).symm⟩
  · rintro ⟨y, h, rfl⟩
    have lent := (lends y).mpr h
    rcases y with m | _ | q
    · exact .strayed lent
    · exact .lost lent
    · by_cases hV : ∃ T, V = .wrap .shared T
      · obtain ⟨T, rfl⟩ := hV
        exact .behind lent (owned_iff.mpr rfl)
      · have direct : ∀ T, V ≠ .wrap .shared T := fun T hT => hV ⟨T, hT⟩
        simp only [Except.map, Option.bind_some, behind_of_ne direct]
        exact .found lent direct

theorem offered_iff : (a.target? use).isSome = true ↔ a.Offered use := by
  cases a with
  | value g => exact iff_of_true rfl trivial
  | handle p => exact iff_of_true rfl trivial
  | @root R V e p =>
    cases use with
    | read => by_cases hr : e.flavor.reads = true <;> simp [target?, Offered, readTarget?, Erased.readFn?, hr]
    | write =>
      by_cases hw : e.flavor.writes = true
      · simp [target?, Offered, writeTarget?, Erased.writeFn?, hw]
      · by_cases hV : ∃ T, V = .wrap .shared T
        · obtain ⟨T, rfl⟩ := hV
          by_cases hr : e.flavor.reads = true <;>
            simp [target?, Offered, writeTarget?, Erased.writeFn?, Erased.readFn?, hw, hr]
        · have none : writeTarget? e = none := by
            unfold writeTarget? Erased.writeFn?
            rw [dif_neg hw]
            split
            · contradiction
            · exact absurd ⟨_, rfl⟩ hV
            · rfl
          simp [target?, Offered, none, hw, hV]

end

end Start

theorem lends_of_readFn? {R V : Ty} {e : Erased R V} {find : Borrow} (h : e.readFn? = some find)
    (borrows : use = .write → e.flavor.writes = false) : Lends use e s p o ↔ (find s p).outcome = o := by
  unfold Erased.readFn? at h
  split at h
  · rename_i hr
    cases h
    have reads : ¬(use = .write ∧ e.flavor.writes = true) := by
      rintro ⟨hu, hw⟩
      rw [borrows hu] at hw
      cases hw
    rw [Lends, if_neg reads, Erased.get_of_reads hr, ends_ok]
  · cases h

theorem lends_of_writeFn? {R V : Ty} {e : Erased R V} {find : Borrow} (h : e.writeFn? = some find) :
    Lends .write e s p o ↔ (find s p).outcome = o := by
  unfold Erased.writeFn? at h
  split at h
  · rename_i hw
    cases h
    rw [Lends, if_pos ⟨rfl, hw⟩, Erased.getMut_of_writes hw, ends_ok]
  · cases h

theorem Start.reaches_iff {a : Start} {find : Borrow} (h : a.target? use = some find) :
    a.Reaches use s o ↔ (find s a.place).outcome = o := by
  cases a with
  | value g =>
    cases h
    constructor
    · rintro ⟨⟩
      rfl
    · rintro rfl
      exact .value g
  | handle p =>
    cases h
    constructor
    · rintro ⟨⟩
      rename_i owned
      exact congrArg Except.ok (owned_iff.mp owned)
    · rintro rfl
      exact .handle (owned_iff.mpr rfl)
  | @root R V e p =>
    cases use with
    | read =>
      obtain ⟨find, hf, rfl⟩ := Option.map_eq_some_iff.mp h
      exact reaches_root_iff fun _ => lends_of_readFn? hf nofun
    | write =>
      by_cases hw : e.flavor.writes = true
      · have lent : e.writeFn? = some (e.path.findMut hw) := dif_pos hw
        simp only [target?, writeTarget?, lent, Option.some.injEq] at h
        exact h ▸ reaches_root_iff fun _ => lends_of_writeFn? lent
      · have lent : e.writeFn? = none := dif_neg hw
        simp only [target?, writeTarget?, lent] at h
        split at h
        · contradiction
        · obtain ⟨find, hf, rfl⟩ := Option.map_eq_some_iff.mp h
          exact reaches_root_iff fun _ => lends_of_readFn? hf fun _ => Bool.eq_false_iff.mpr hw
        · cases h

namespace Inside

/-- How it ends to look for a value behind a guard. -/
inductive Finds (use : Use) (s : Store) (p : Place) : Inside → Except String (Option Place) → Prop where
  | whole : Finds use s p whole (.ok (some p))
  | path {T V : Ty} {e : Erased T V} {o : Except String (Option Place)} (lends : Lends use e s p o) :
      Finds use s p (path e) o

/-- Behind a guard an accessor is used for what it lends. -/
def Offered (use : Use) : Inside → Prop
  | whole => True
  | path e =>
    match use with
    | .read => e.flavor.reads = true
    | .write => e.flavor.writes = true

theorem offered_iff {i : Inside} : (i.find? use).isSome = true ↔ i.Offered use := by
  cases i with
  | whole => exact iff_of_true rfl trivial
  | path e => cases use <;> simp [find?, Offered, Erased.readFn?, Erased.writeFn?]

theorem finds_iff {i : Inside} {find : Borrow} (h : i.find? use = some find) :
    i.Finds use s p o ↔ (find s p).outcome = o := by
  cases i with
  | whole =>
    cases h
    constructor
    · rintro ⟨⟩
      rfl
    · rintro rfl
      exact .whole
  | path e =>
    have lends : Lends use e s p o ↔ (find s p).outcome = o := by
      cases use with
      | read => exact lends_of_readFn? h nofun
      | write => exact lends_of_writeFn? h
    rw [← lends]
    exact ⟨fun | .path lends => lends, .path⟩

end Inside

/-! ### Ways -/

namespace Way
variable {w : Way use}

/-- How it ends to go to the guarded value. -/
def Reaches (w : Way use) (s : Store) (o : Except String (Option Place)) : Prop := w.start.Reaches use s o

/-- There is a guarded value, and it is at `g`. -/
def LeadsTo (w : Way use) (s : Store) (g : Place) : Prop := w.Reaches s (.ok (some g))

/-- How it ends to look for a value behind the guard at `g`. -/
def Finds (w : Way use) (s : Store) (g : Place) (o : Except String (Option Place)) : Prop :=
  w.inside.Finds use s g.inside o

/-- Nothing stands between the guarded value at `g` and the function, which is run at `p`. -/
structure RunsAt (w : Way use) (s : Store) (g p : Place) : Prop where
  leads : w.LeadsTo s g
  acquired : w.lock = .acquired
  sound : poisoned s g = false
  found : w.Finds s g (.ok (some p))

/-- What readers and writers have in common: `f` is run on the guarded value and at a place behind it. -/
def access (w : Way use) (s : Store) (f : Place → Store → Place → Access α) : Access α :=
  via w.target s w.start.place fun g => locked use.name w.lock s g w.find (f g)

theorem reaches_iff : w.Reaches s o ↔ (w.target s w.start.place).outcome = o :=
  Start.reaches_iff (Option.some_get w.starts).symm

theorem finds_iff : w.Finds s g o ↔ (w.find s g.inside).outcome = o :=
  Inside.finds_iff (Option.some_get w.finds).symm

/-- There is a way wherever one can be reached from the other. -/
theorem exists_iff {lock : Acquisition} {start : Start} {inside : Inside} :
    (∃ w : Way use, w.lock = lock ∧ w.start = start ∧ w.inside = inside) ↔ start.Offered use ∧ inside.Offered use := by
  rw [← Start.offered_iff, ← Inside.offered_iff]
  constructor
  · rintro ⟨w, rfl, rfl, rfl⟩
    exact ⟨w.starts, w.finds⟩
  · rintro ⟨starts, finds⟩
    exact ⟨⟨lock, start, inside, starts, finds⟩, rfl, rfl, rfl⟩

theorem LeadsTo.unique (hg : w.LeadsTo s g) (hh : w.LeadsTo s h) : g = h :=
  Option.some.inj (Except.ok.inj ((reaches_iff.mp hg).symm.trans (reaches_iff.mp hh)))

theorem RunsAt.unique (hp : w.RunsAt s g p) (hq : w.RunsAt s h q) : g = h ∧ p = q := by
  cases hp.leads.unique hq.leads
  exact ⟨rfl, Option.some.inj (Except.ok.inj ((finds_iff.mp hp.found).symm.trans (finds_iff.mp hq.found)))⟩

end Way

/-! ### What is asked, in order -/

section
variable {w : Way use} {reason e : String} {f : Place → Store → Place → Access α}

theorem access_lost (h : w.Reaches s (.ok none)) : w.access s f = .without s .absent := by
  simp only [Way.access, via, Way.reaches_iff.mp h]

theorem access_of_leadsTo (h : w.LeadsTo s g) : w.access s f = locked use.name w.lock s g w.find (f g) := by
  simp only [Way.access, via, Way.reaches_iff.mp h]

theorem access_refused (h : w.LeadsTo s g) (hl : w.lock = .failed reason) :
    w.access s f = { Access.without s .lockFailed with records := [lockFailure use.name reason] } := by
  simp only [access_of_leadsTo h, locked, hl]

theorem access_poisoned (h : w.LeadsTo s g) (hl : w.lock = .acquired) (hp : poisoned s g = true) :
    w.access s f = .without s .poisoned := by
  simp only [access_of_leadsTo h, locked, hl, hp, if_true]

theorem access_missing (h : w.LeadsTo s g) (hl : w.lock = .acquired) (hp : poisoned s g = false)
    (hf : w.Finds s g (.ok none)) : w.access s f = .without s .absent := by
  simp [access_of_leadsTo h, locked, hl, hp, Way.finds_iff.mp hf]

theorem access_strayed (h : w.Reaches s (.error e)) : w.access s f = ⟨[], s, 0, .error e⟩ := by
  simp only [Way.access, via, Way.reaches_iff.mp h]

theorem access_broken (h : w.LeadsTo s g) (hl : w.lock = .acquired) (hp : poisoned s g = false)
    (hf : w.Finds s g (.error e)) : w.access s f = ⟨[], s, 0, .error e⟩ := by
  simp [access_of_leadsTo h, locked, hl, hp, Way.finds_iff.mp hf]

theorem access_of_runsAt (h : w.RunsAt s g p) : w.access s f = f g s p := by
  simp [access_of_leadsTo h.leads, locked, h.acquired, h.sound, Way.finds_iff.mp h.found]

/-- Either the function is run, or nothing is done and the answer is not a good one. -/
theorem access_cases (w : Way use) (s : Store) (f : Place → Store → Place → Access α) :
    (∃ g p, w.RunsAt s g p ∧ w.access s f = f g s p) ∨
      (∀ g p, ¬w.RunsAt s g p) ∧ (w.access s f).calls = 0 ∧ (w.access s f).store = s ∧
        ∀ a, (w.access s f).outcome = .ok a → a.status ≠ .ok ∧ a.value = none := by
  by_cases hr : ∃ g p, w.RunsAt s g p
  · obtain ⟨g, p, h⟩ := hr
    exact .inl ⟨g, p, h, access_of_runsAt h⟩
  · refine .inr ⟨fun g p h => hr ⟨g, p, h⟩, ?_⟩
    -- The questions in the order in which they are asked: the first that fails ends the access.
    rcases ho : (w.target s w.start.place).outcome with e | _ | g
    · simp [access_strayed (Way.reaches_iff.mpr ho)]
    · simp [access_lost (Way.reaches_iff.mpr ho), Access.without]
    · have leads : w.LeadsTo s g := Way.reaches_iff.mpr ho
      cases hl : w.lock with
      | failed reason => simp [access_refused leads hl, Access.without]
      | acquired =>
        cases hp : poisoned s g with
        | true => simp [access_poisoned leads hl hp, Access.without]
        | false =>
          rcases hf : (w.find s g.inside).outcome with e | _ | p
          · simp [access_broken leads hl hp (Way.finds_iff.mpr hf)]
          · simp [access_missing leads hl hp (Way.finds_iff.mpr hf), Access.without]
          · exact absurd ⟨g, p, leads, hl, hp, Way.finds_iff.mpr hf⟩ hr

end

/-! ### Answers -/

/-- What an access leaves behind whose function answers with `answer`. -/
structure Answers (w : Way use) (s : Store) (answer : Store → Place → Except String α) (x : Access α) : Prop where
  /-- It is settled what the way leads to, and what is found there. -/
  reaches : ∃ o, ∀ o', w.Reaches s o' ↔ o = o'
  finds : ∀ g, ∃ o, ∀ o', w.Finds s g o' ↔ o = o'
  /-- Where there is no guarded value, nothing is acquired: the lock is of no consequence. -/
  lost : w.Reaches s (.ok none) → x = .without s .absent
  refused : ∀ g reason, w.LeadsTo s g → w.lock = .failed reason →
    x = ⟨[⟨.warning, use.name ++ " lock failed: " ++ reason⟩], s, 0, .ok ⟨.lockFailed, none⟩⟩
  poisoned : ∀ g, w.LeadsTo s g → w.lock = .acquired → Guard.poisoned s g = true → x = .without s .poisoned
  missing : ∀ g, w.LeadsTo s g → w.lock = .acquired → Guard.poisoned s g = false →
    w.Finds s g (.ok none) → x = .without s .absent
  /-- What an accessor on the way breaks off with is passed on. -/
  strayed : ∀ e, w.Reaches s (.error e) → x = ⟨[], s, 0, .error e⟩
  broken : ∀ g e, w.LeadsTo s g → w.lock = .acquired → Guard.poisoned s g = false →
    w.Finds s g (.error e) → x = ⟨[], s, 0, .error e⟩
  runs : ∀ g p, w.RunsAt s g p →
    x.records = [] ∧ x.calls = 1 ∧ x.outcome = (answer s p).map fun v => ⟨.ok, some v⟩
  idle : (∀ g p, ¬w.RunsAt s g p) → x.calls = 0 ∧ x.store = s
  /-- The function is run if the status is ok or the function breaks off, and only then. -/
  called : x.calls = 1 ↔
    (∃ v, x.outcome = .ok ⟨.ok, v⟩) ∨ ∃ g p e, w.RunsAt s g p ∧ answer s p = .error e
  valued : ∀ a, x.outcome = .ok a → (a.value.isSome ↔ a.status = .ok)

section
variable {w : Way use} {answer : Store → Place → Except String α}

theorem answers_access {f : Place → Store → Place → Access α}
    (hf : ∀ g s p, (f g s p).records = [] ∧ (f g s p).calls = 1 ∧
      (f g s p).outcome = (answer s p).map fun v => ⟨.ok, some v⟩) :
    Answers w s answer (w.access s f) where
  reaches := ⟨_, fun _ => Way.reaches_iff⟩
  finds _ := ⟨_, fun _ => Way.finds_iff⟩
  lost := access_lost
  refused _ _ := access_refused
  poisoned _ := access_poisoned
  missing _ := access_missing
  strayed _ := access_strayed
  broken _ _ := access_broken
  runs g p h := by
    rw [access_of_runsAt h]
    exact hf g s p
  idle hr := by
    rcases access_cases w s f with ⟨g, p, h, -⟩ | ⟨-, hc, hs, -⟩
    · exact absurd h (hr g p)
    · exact ⟨hc, hs⟩
  called := by
    rcases access_cases w s f with ⟨g, p, h, hx⟩ | ⟨hr, hc, -, ha⟩
    · obtain ⟨-, hc, ho⟩ := hf g s p
      refine ⟨fun _ => ?_, fun _ => hx ▸ hc⟩
      rw [hx, ho]
      cases ha : answer s p with
      | ok v => exact .inl ⟨some v, rfl⟩
      | error e => exact .inr ⟨g, p, e, h, ha⟩
    · refine ⟨fun h => absurd (hc.symm.trans h) Nat.zero_ne_one, ?_⟩
      rintro (⟨v, ho⟩ | ⟨g, p, e, h, -⟩)
      · exact absurd rfl (ha _ ho).1
      · exact absurd h (hr g p)
  valued a ho := by
    rcases access_cases w s f with ⟨g, p, -, hx⟩ | ⟨-, -, -, ha⟩
    · rw [hx, (hf g s p).2.2] at ho
      cases hv : answer s p with
      | error e => simp [hv, Except.map] at ho
      | ok v =>
        simp only [hv, Except.map, Except.ok.injEq] at ho
        simp [← ho]
    · obtain ⟨hne, hv⟩ := ha a ho
      simp [hne, hv]

theorem answers_read (w : Way .read) (s : Store) (f : Store → Place → Except String α) :
    Answers w s f (w.read s f) :=
  answers_access fun _ _ _ => ⟨rfl, rfl, rfl⟩

/-- A reader leaves the store, also if it breaks off. -/
theorem store_read (w : Way .read) (s : Store) (f : Store → Place → Except String α) : (w.read s f).store = s := by
  rcases access_cases w s fun _ s p => ⟨[], s, 1, (f s p).map fun v => ⟨.ok, some v⟩⟩ with
    ⟨g, p, -, hx⟩ | ⟨-, -, hs, -⟩
  · exact congrArg Access.store hx
  · exact hs

end

/-! ### The poison -/

theorem get?_of_covers (h : g.Covers r) : s.get? r = (s.get? g).bind (·.get? (r.path.drop g.path.length)) := by
  obtain ⟨base, rest, path⟩ := h
  have dropped : r.path.drop g.path.length = rest := by rw [← path, List.drop_left]
  rw [dropped, Store.get?, Store.get?, base, ← path]
  cases s.root? g.base with
  | none => rfl
  | some u => simp only [Option.bind_some, Value.get?_append]

/-- The poison is no part of what a place holds, unless the guarded value is there or inside. -/
theorem get?_setPoison (h : ¬r.Covers g) : (setPoison s g b).get? r = s.get? r := by
  unfold setPoison
  split
  · rename_i b' v hg
    by_cases hc : g.Covers r
    · rw [get?_of_covers hc, get?_of_covers hc, Store.get?_set hg, hg]
      -- `r` is a step further in at least, and no step sees the poison.
      cases hd : r.path.drop g.path.length with
      | nil =>
        have hle := List.drop_eq_nil_iff.mp hd
        exact absurd ⟨hc.1.symm, (hc.2.eq_of_length_le hle) ▸ List.prefix_refl _⟩ h
      | cons a as => cases a <;> rfl
    · exact Store.get?_set_of_apart hc h
  · rfl

theorem inner?_setPoison : inner? (setPoison s g b) g = inner? s g := by
  unfold setPoison
  split
  · rename_i b' v hg
    simp only [inner?, Store.get?_set hg, hg]
  · rfl

/-! ### Writers -/

/-- A function that may change the value at the place it is run at, and make new cells. Every variable and
    every cell there was is as if the value had been put. -/
structure Writer (α : Type) where
  run : Store → Place → Store × Except String α
  within : ∀ s p c, (s.root? c).isSome → (run s p).1.root? c = (s.set p ((run s p).1.value p)).root? c

namespace Writer
variable {f : Writer α}

/-- The writer that a function on the value is. -/
def onValue (f : Value → Value × Except String α) : Writer α where
  run s p := (s.set p (f (s.value p)).1, (f (s.value p)).2)
  within s p c _ := by
    cases hv : s.get? p with
    | some v => rw [Store.value_eq (Store.get?_set hv)]
    | none => rw [Store.set_of_get?_eq_none hv, Store.set_of_get?_eq_none hv]

/-- What a writer leaves at the place it is run at. -/
def leaves (f : Writer α) (s : Store) (p : Place) : Value := (f.run s p).1.value p

theorem get?_run (h : (s.get? r).isSome) : (f.run s p).1.get? r = (s.set p (f.leaves s p)).get? r := by
  obtain ⟨v, hv⟩ := Option.isSome_iff_exists.mp h
  obtain ⟨u, hu, -⟩ := Store.exists_root?_of_get? hv
  simp only [Store.get?, f.within s p r.base (by simp [hu]), leaves]

end Writer

/-- The store that a writer leaves that is run at `p`, behind the guarded value at `g`. -/
def settled (s : Store) (g p : Place) (f : Writer α) : Store :=
  match (f.run s p).2 with
  | .ok _ => (f.run s p).1
  | .error _ => setPoison (f.run s p).1 g true

/-- What an access leaves in the store that runs `f`: a guarded value has what `f` leaves at its place and else
    what it had, and what is not at that place, inside or around stays. -/
structure Writes (w : Way .write) (s : Store) (f : Writer α) (x : Access α) : Prop where
  payload : ∀ g p, w.RunsAt s g p → (s.get? g).isSome → inner? x.store g = inner? (s.set p (f.leaves s p)) g
  elsewhere : ∀ g p r, w.RunsAt s g p → (s.get? r).isSome → ¬p.Covers r → ¬r.Covers p → ¬r.Covers g →
    x.store.get? r = s.get? r

section
variable {w : Way .write} {f : Writer α}

theorem Way.write_eq_access (w : Way .write) (s : Store) (f : Writer α) :
    w.write s f.run = w.access s fun g s p =>
      ⟨[], settled s g p f, 1, (f.run s p).2.map fun v => ⟨.ok, some v⟩⟩ := by
  simp only [write, access, Guard.write]
  congr 2
  funext g
  congr 1
  funext s p
  rcases hf : f.run s p with ⟨t, o⟩
  cases o <;> simp [settled, hf, Except.map]

theorem answers_write (w : Way .write) (s : Store) (f : Writer α) :
    Answers w s (fun s p => (f.run s p).2) (w.write s f.run) :=
  Way.write_eq_access w s f ▸ answers_access fun _ _ _ => ⟨rfl, rfl, rfl⟩

theorem store_write (h : w.RunsAt s g p) : (w.write s f.run).store = settled s g p f := by
  rw [Way.write_eq_access, access_of_runsAt h]

theorem inner?_settled : inner? (settled s g p f) g = inner? (f.run s p).1 g := by
  unfold settled
  split
  · rfl
  · exact inner?_setPoison

theorem get?_settled (h : ¬r.Covers g) : (settled s g p f).get? r = (f.run s p).1.get? r := by
  unfold settled
  split
  · rfl
  · exact get?_setPoison h

theorem writes_write (w : Way .write) (s : Store) (f : Writer α) : Writes w s f (w.write s f.run) where
  payload g p h hg := by
    rw [store_write h, inner?_settled]
    simp only [inner?, Writer.get?_run hg]
  elsewhere g p r h hr hp hp' hg := by
    rw [store_write h, get?_settled hg, Writer.get?_run hr, Store.get?_set_of_apart hp hp']

end

end Accessors.Guard
