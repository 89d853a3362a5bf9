import Accessors.Proofs.Accessor.InTurn
import Accessors.Proofs.Session.Lens

/-! # Partial lenses

A reading and a writing accessor go together as a partial lens if the writing one finds a target exactly where the
reading one finds a value, what was written is read, and writing what was read changes nothing. Two of them one after
the other are one again if they are steady: a target is inside the value that is given, or in a cell that this value
reaches, and the reader reads the value at the target also after what it points to has changed. Besides, the second
reader has to go by the value that it is given, and not by where that is.

The accessors of whole members and of whole cases and the steps of wrappers are such lenses. -/

namespace Accessors

/-! ### Inside a value -/

namespace Value

theorem set_append {v u : Value} {ss : List Step} (h : v.get? ss = some u) (ts : List Step) (w : Value) :
    v.set (ss ++ ts) w = v.set ss (u.set ts w) := by
  induction ss generalizing v with
  | nil =>
    cases h
    rfl
  | cons s ss ih =>
    simp only [get?] at h
    cases hc : v.child? s with
    | none => simp [hc] at h
    | some c =>
      simp only [hc] at h
      simp only [List.cons_append, set, hc, ih h]

end Value

namespace Store
variable {s s' : Store} {p q m n : Place} {c d : Nat} {u x : Value}

/-- A place inside the value at another place, or in a cell that this value reaches. -/
def Within (s : Store) (p q : Place) : Prop :=
  p.Covers q ∨ ∃ d, q.base = .cell d ∧ Reaches s.cells (s.value p) d

theorem Within.refl (s : Store) (p : Place) : s.Within p p := .inl p.covers_refl

theorem Within.reaches (h : s.Within p q) (r : Reaches s.cells (s.value q) d) : Reaches s.cells (s.value p) d := by
  rcases h with covers | ⟨e, base, reached⟩
  · exact r.of_covers covers
  · exact reached.of_base base r

theorem Within.trans (h : s.Within p q) (h' : s.Within q m) : s.Within p m := by
  rcases h' with covers' | ⟨d, base', reached'⟩
  · rcases h with covers | ⟨e, base, reached⟩
    · exact .inl (covers.trans covers')
    · exact .inr ⟨e, covers'.1.trans base, reached⟩
  · exact .inr ⟨d, base', h.reaches reached'⟩

theorem set_append {b : Base} {ss ts : List Value.Step} (hu : s.get? ⟨b, ss⟩ = some u) (x : Value) :
    s.set ⟨b, ss ++ ts⟩ x = s.set ⟨b, ss⟩ (u.set ts x) := by
  obtain ⟨r, hr, hget⟩ := exists_root?_of_get? hu
  simp only at hr hget
  simp only [set, hr, Value.set_append hget]

/-- A change inside the value at a place puts another value there. -/
theorem exists_set_eq (h : q.Covers m) (hu : s.get? q = some u) (x : Value) : ∃ y, s.set m x = s.set q y := by
  obtain ⟨b, ss⟩ := q
  obtain ⟨b', ss'⟩ := m
  obtain ⟨base, ts, path⟩ := h
  cases base
  have path : ss' = ss ++ ts := path.symm
  subst path
  exact ⟨u.set ts x, set_append hu x⟩

theorem get?_set_item {i : Nat} {v : Value} {vs : List Value} (hu : s.get? p = some (.items vs)) (hi : vs[i]? = some v)
    (x : Value) : (s.set (p.item i) x).get? p = some (.items (vs.set i x)) := by
  have here : s.set (p.item i) x = s.set p ((Value.items vs).set [.item i] x) := set_append hu x
  rw [here, get?_set hu]
  simp only [Value.set, Value.child?, hi, Value.setChild]

/-- Outside the value at a place and the cells that it reaches everything is the same: what lies apart is the same
    value, and what lies around has the same outline. -/
def ChangedWithin (s s' : Store) (p : Place) : Prop :=
  ∀ n, ¬s.Within p n → s.Alike s' n ∧ ((∀ q, s.Within p q → ¬n.Covers q) → s'.get? n = s.get? n)

theorem ChangedWithin.refl (s : Store) (p : Place) : s.ChangedWithin s p := fun _ _ => ⟨rfl, fun _ => rfl⟩

theorem changedWithin_set (h : s.Within p q) (x : Value) : s.ChangedWithin (s.set q x) p := by
  intro n outside
  have apart : ¬q.Covers n := fun covers => outside (h.trans (.inl covers))
  exact ⟨alike_set apart, fun around => get?_set_of_apart apart (around q h)⟩

end Store

/-! ### The laws -/

namespace Erased
variable {R M V : Ty} {s t : Store} {p q : Place} {v x : Value}

/-- The place that an accessor lends for writing. -/
def target? (e : Erased R V) (s : Store) (p : Place) : Option Place := Session.result? (e.getMut s p)

/-- The place that an accessor lends for reading. -/
def source? (e : Erased R V) (s : Store) (p : Place) : Option Place := Session.result? (e.get s p)

/-- The value that an accessor reads. -/
def value? (e : Erased R V) (s : Store) (p : Place) : Option Value := (e.source? s p).map s.value

/-- The store after a value is written through an accessor, if there is a target. -/
def put (e : Erased R V) (x : Value) (s : Store) (p : Place) : Store := (e.target? s p).elim s (s.set · x)

/-- The laws of a partial lens, for a reading and a writing accessor at a place. -/
structure PartialLens (r w : Erased R V) (s : Store) (p : Place) : Prop where
  /-- There is a target to write exactly if there is a value to read. -/
  found : (w.target? s p).isSome = (r.value? s p).isSome
  /-- What was written is read. -/
  put_get : (w.target? s p).isSome = true → ∀ x, r.value? (w.put x s p) p = some x
  /-- Writing what was read changes nothing. -/
  get_put : ∀ v, r.value? s p = some v → w.put v s p = s

/-- The target is inside the value at the place or in a cell that it reaches. -/
def TargetsWithin (w : Erased R V) (s : Store) (p : Place) : Prop := ∀ q, w.target? s p = some q → s.Within p q

/-- The value at the target is also read after a change of what it points to. -/
def ReadsThrough (r w : Erased R V) (s : Store) (p : Place) : Prop :=
  ∀ q, w.target? s p = some q → ∀ (m : Place) d, m.base = .cell d → Store.Reaches s.cells (s.value q) d →
    ∀ x, r.value? (s.set m x) p = some ((s.set m x).value q)

/-- A partial lens that can be followed by another one: its target is inside the value that is given, and is read also
    when something behind it has changed. -/
structure SteadyLens (r w : Erased R V) (s : Store) (p : Place) : Prop extends PartialLens r w s p where
  inside : w.TargetsWithin s p
  through : r.ReadsThrough w s p

theorem put_of_target (e : Erased R V) (h : e.target? s p = some q) (x : Value) : e.put x s p = s.set q x := by
  rw [put, h]
  rfl

theorem put_of_no_target (e : Erased R V) (h : e.target? s p = none) (x : Value) : e.put x s p = s := by
  rw [put, h]
  rfl

section
variable {r w : Erased R V} (h : r.PartialLens w s p) (hq : w.target? s p = some q)
include h hq

theorem PartialLens.read_back (x : Value) : r.value? (s.set q x) p = some x := by
  rw [← put_of_target w hq]
  exact h.put_get (by rw [hq]; rfl) x

/-- There is a value at the target: otherwise whatever is written would be read in the same store. -/
theorem PartialLens.exists_get? : ∃ u, s.get? q = some u := by
  cases hu : s.get? q with
  | some u => exact ⟨u, rfl⟩
  | none =>
    have read : ∀ x, r.value? s p = some x := fun x => by
      have back := h.read_back hq x
      rwa [Store.set_of_get?_eq_none hu] at back
    cases (read .empty).symm.trans (read .moved)

/-- What is read is at the target. -/
theorem PartialLens.read_eq : r.value? s p = some (s.value q) := by
  obtain ⟨u, hu⟩ := h.exists_get? hq
  have back := h.read_back hq u
  rw [Store.set_self hu] at back
  rw [back, Store.value_eq hu]

end

/-- After a change inside the target, what is there is read. -/
theorem SteadyLens.read_within {r w : Erased R V} {m : Place} (h : r.SteadyLens w s p) (hq : w.target? s p = some q)
    (inside : s.Within q m) (x : Value) : r.value? (s.set m x) p = some ((s.set m x).value q) := by
  rcases inside with covers | ⟨d, base, reached⟩
  · obtain ⟨u, hu⟩ := h.exists_get? hq
    obtain ⟨y, hy⟩ := Store.exists_set_eq covers hu x
    rw [hy, h.read_back hq y, Store.value_eq (Store.get?_set hu)]
  · exact h.through q hq m d base reached x

/-! ### Two legs -/

theorem result?_andThen {α β : Type} (z : Run (Option α)) (f : α → Run (Option β)) :
    Session.result? (.ok (z.andThen fun a => a.elim (.done none) f)) =
      (Session.result? (.ok z)).bind fun a => Session.result? (.ok (f a)) := by
  obtain ⟨calls, outcome⟩ := z
  rcases outcome with e | a | a <;> rfl

section
variable {a : Erased R M} {b : Erased M V} {e : Erased R V}

theorem exists_next (same : a.flavor.family = b.flavor.family) :
    ∃ e, a.next b = .ok e ∧ e.flavor.family = a.flavor.family := by
  have composes : ∃ k, a.flavor.compose b.flavor = some k := by
    rw [Flavor.compose, same]
    cases b.flavor.family <;> exact ⟨_, rfl⟩
  obtain ⟨k, hk⟩ := composes
  exact ⟨_, next_eq_ok.mpr ⟨k, hk, rfl⟩, Flavor.family_of_compose hk⟩

theorem target?_next (h : a.next b = .ok e) (write : e.flavor.family = .write) :
    e.target? s p = (a.target? s p).bind (b.target? s) := by
  obtain ⟨k, hk, rfl⟩ := next_eq_ok.mp h
  have hw : k.writes = true := by revert write; cases k <;> simp [Flavor.family, Flavor.writes]
  obtain ⟨ha, hb⟩ := Flavor.writes_of_compose hk hw
  have legs : b.target? s = fun m => Session.result? (.ok (b.path.findMut hb s m)) :=
    funext fun m => by rw [target?, getMut_of_writes hb]
  rw [target?, getMut_of_writes hw, Accessor.findMut_compose, result?_andThen, legs, target?, getMut_of_writes ha]

theorem source?_next (h : a.next b = .ok e) (read : e.flavor.family = .read) :
    e.source? s p = (a.source? s p).bind (b.source? s) := by
  obtain ⟨k, hk, rfl⟩ := next_eq_ok.mp h
  have hr : k.reads = true := by revert read; cases k <;> simp [Flavor.family, Flavor.reads]
  obtain ⟨ha, hb⟩ := Flavor.reads_of_compose hk hr
  have legs : b.source? s = fun m => Session.result? (.ok (b.path.find hb s m)) :=
    funext fun m => by rw [source?, get_of_reads hb]
  rw [source?, get_of_reads hr, Accessor.find_compose, result?_andThen, legs, source?, get_of_reads ha]

end

/-- What an accessor reads depends on the value that it is given, and not on where that is. -/
def ByValue (e : Erased R V) : Prop := ∀ {s : Store} {p q : Place}, s.value p = s.value q → e.value? s p = e.value? s q

/-- Accessors that look at nothing but the value they are given read by value. -/
theorem byValue_of_local {e : Erased R V} (h : e.path.Local) : e.ByValue := by
  intro s p q same
  rw [value?, value?, source?, source?]
  by_cases reads : e.flavor.reads = true
  · rw [get_of_reads reads, get_of_reads reads]
    have found := h.read reads same ⟨fun _ _ => rfl, fun h => nomatch h⟩
    rw [Run.map_eq, Run.map_eq, Run.mk.injEq] at found
    obtain ⟨-, outcome⟩ := found
    generalize e.path.find reads s p = z at outcome ⊢
    generalize e.path.find reads s q = z' at outcome ⊢
    obtain ⟨calls, o⟩ := z
    obtain ⟨calls', o'⟩ := z'
    rcases o with e | m <;> rcases o' with e' | m'
    · rfl
    · cases outcome
    · cases outcome
    · exact Except.ok.inj outcome
  · simp only [get, reads, Bool.false_eq_true, ↓reduceDIte, Session.result?]

theorem ByValue.next {a : Erased R M} {b : Erased M V} {e : Erased R V} (ha : a.ByValue) (hb : b.ByValue)
    (h : a.next b = .ok e) (read : e.flavor.family = .read) : e.ByValue := by
  intro s p q same
  have mid : (a.source? s p).map s.value = (a.source? s q).map s.value := ha same
  rw [value?, value?, source?_next h read, source?_next h read]
  cases hm : a.source? s p with
  | none =>
    rw [hm] at mid
    rw [Option.map_eq_none_iff.mp mid.symm]
  | some m =>
    rw [hm] at mid
    obtain ⟨n, hn, there⟩ := Option.map_eq_some_iff.mp mid.symm
    rw [hn]
    exact hb there.symm

end Erased

/-! ### Legs -/

/-- A reading and a writing accessor from one root to one value. -/
structure LensLeg (R V : Ty) where
  reader : Erased R V
  writer : Erased R V
  reads : reader.flavor.family = .read
  writes : writer.flavor.family = .write

namespace LensLeg
variable {R M V : Ty} {a : LensLeg R M} {b : LensLeg M V} {l : LensLeg R V} {s t : Store} {p q : Place}

/-- The two accessors of a leg are a partial lens at a place, by the laws alone. -/
def Lawful (l : LensLeg R V) (s : Store) (p : Place) : Prop := l.reader.PartialLens l.writer s p

def Inside (l : LensLeg R V) (s : Store) (p : Place) : Prop := l.writer.TargetsWithin s p

def Through (l : LensLeg R V) (s : Store) (p : Place) : Prop := l.reader.ReadsThrough l.writer s p

def Steady (l : LensLeg R V) (s : Store) (p : Place) : Prop := l.reader.SteadyLens l.writer s p

/-- A leg is followed by another one, readers by readers and writers by writers. -/
structure Joins (a : LensLeg R M) (b : LensLeg M V) (l : LensLeg R V) : Prop where
  reader : a.reader.next b.reader = .ok l.reader
  writer : a.writer.next b.writer = .ok l.writer

theorem exists_joins (a : LensLeg R M) (b : LensLeg M V) : ∃ l, a.Joins b l := by
  obtain ⟨r, hr, reads⟩ := Erased.exists_next (a.reads.trans b.reads.symm)
  obtain ⟨w, hw, writes⟩ := Erased.exists_next (a.writes.trans b.writes.symm)
  exact ⟨⟨r, w, reads.trans a.reads, writes.trans a.writes⟩, hr, hw⟩

namespace Joins
variable (h : a.Joins b l)
include h

theorem target? : l.writer.target? s p = (a.writer.target? s p).bind (b.writer.target? s) :=
  Erased.target?_next h.writer l.writes

theorem byValue (first : a.reader.ByValue) (second : b.reader.ByValue) : l.reader.ByValue :=
  first.next second h.reader l.reads

/-- Where the first reader finds a value, the second one reads as it does in any place with that value. -/
theorem value? (second : b.reader.ByValue) (first : a.reader.value? t p = some (t.value q)) :
    l.reader.value? t p = b.reader.value? t q := by
  obtain ⟨m, hm, same⟩ := Option.map_eq_some_iff.mp first
  rw [Erased.value?, Erased.source?_next h.reader l.reads, hm]
  exact second same

/-- Two steady lenses one after the other are a steady lens. -/
theorem steady_next (byValue : b.reader.ByValue) (first : a.Steady s p)
    (second : ∀ q, a.writer.target? s p = some q → b.Steady s q) : l.Steady s p := by
  -- Inside the first target the joined reader reads as the second one does at that target.
  have within {q m : Place} (hq : a.writer.target? s p = some q) (inside : s.Within q m) (x : Value) :
      l.reader.value? (s.set m x) p = b.reader.value? (s.set m x) q :=
    h.value? byValue (first.read_within hq inside x)
  have now {q : Place} (hq : a.writer.target? s p = some q) : l.reader.value? s p = b.reader.value? s q :=
    h.value? byValue (first.read_eq hq)
  have legs {m : Place} (hm : l.writer.target? s p = some m) :
      ∃ q, a.writer.target? s p = some q ∧ b.writer.target? s q = some m :=
    Option.bind_eq_some_iff.mp (h.target?.symm.trans hm)
  refine ⟨⟨?_, fun found x => ?_, fun v hv => ?_⟩, fun m hm => ?_, fun m hm n d base reached x => ?_⟩
  · cases hq : a.writer.target? s p with
    | some q => rw [h.target?, hq, now hq, Option.bind_some, (second q hq).found]
    | none =>
      have unread := first.found
      rw [hq, Erased.value?, Option.isSome_map] at unread
      have unread : a.reader.source? s p = none :=
        Option.not_isSome_iff_eq_none.mp fun some => nomatch unread.trans some
      rw [h.target?, hq, Erased.value?, Erased.source?_next h.reader l.reads, unread]
      rfl
  · obtain ⟨m, hm⟩ := Option.isSome_iff_exists.mp found
    obtain ⟨q, hq, hm'⟩ := legs hm
    rw [Erased.put_of_target _ hm, within hq ((second q hq).inside m hm')]
    exact (second q hq).read_back hm' x
  · cases hm : l.writer.target? s p with
    | none => exact Erased.put_of_no_target _ hm v
    | some m =>
      obtain ⟨q, hq, hm'⟩ := legs hm
      rw [now hq] at hv
      rw [Erased.put_of_target _ hm, ← Erased.put_of_target _ hm']
      exact (second q hq).get_put v hv
  · obtain ⟨q, hq, hm'⟩ := legs hm
    exact (first.inside q hq).trans ((second q hq).inside m hm')
  · obtain ⟨q, hq, hm'⟩ := legs hm
    have outer : s.Within q n := .inr ⟨d, base, ((second q hq).inside m hm').reaches reached⟩
    rw [within hq outer]
    exact (second q hq).through m hm' n d base reached x

end Joins

end LensLeg

/-! ### Declared legs -/

namespace Store
variable {s : Store} {p q m : Place}

/-- No way leads from the value at a place back to the cell that the place is in. -/
def Forward (s : Store) (p : Place) : Prop := ∀ d, p.base = .cell d → ¬Reaches s.cells (s.value p) d

/-- A change further on leaves the outline of the place where the way began. -/
theorem alike_set_within (forward : s.Forward p) (inside : s.Within p q) (deeper : ¬q.Covers p) (h : s.Within q m)
    (x : Value) : s.Alike (s.set m x) p := by
  refine alike_set fun covers => ?_
  rcases h with covers' | ⟨d, base, reached⟩
  · exact deeper (covers'.trans covers)
  · exact forward d (covers.1.trans base) (inside.reaches reached)

end Store

namespace Erased
variable {R V : Ty} {r w : Erased R V} {x y : Store → Place → Option Place} {s : Store} {p : Place}

theorem source?_of_lent (reads : ∀ s p, r.get s p = .ok (.done (x s p))) : r.source? s p = x s p := by
  rw [source?, reads]
  rfl

theorem target?_of_lent (writes : ∀ s p, w.getMut s p = .ok (.done (y s p))) : w.target? s p = y s p := by
  rw [target?, writes]
  rfl

/-- A reader and a writer that lend the same place are a partial lens, if the place is lent still when something else
    is put there. -/
theorem partialLens_of_lent (reads : ∀ s p, r.get s p = .ok (.done (x s p)))
    (writes : ∀ s p, w.getMut s p = .ok (.done (y s p))) (same : y s p = x s p)
    (value : ∀ q, x s p = some q → ∃ u, s.get? q = some u)
    (stays : ∀ q v, x s p = some q → x (s.set q v) p = some q) : r.PartialLens w s p := by
  have target : w.target? s p = x s p := (target?_of_lent writes).trans same
  refine ⟨?_, fun found v => ?_, fun v hv => ?_⟩
  · rw [target, value?, source?_of_lent reads, Option.isSome_map]
  · obtain ⟨q, hq⟩ := Option.isSome_iff_exists.mp found
    obtain ⟨u, hu⟩ := value q (target ▸ hq)
    rw [put_of_target w hq, value?, source?_of_lent reads, stays q v (target ▸ hq), Option.map_some,
      Store.value_eq (Store.get?_set hu)]
  · rw [value?, source?_of_lent reads, Option.map_eq_some_iff] at hv
    obtain ⟨q, hq, rfl⟩ := hv
    obtain ⟨u, hu⟩ := value q hq
    rw [put_of_target w (target.trans hq), Store.value_eq hu, Store.set_self hu]

/-- They are a steady lens, if the place is part of the value that is given and is lent still after any change of what
    is there or behind it. -/
theorem steadyLens_of_lent (reads : ∀ s p, r.get s p = .ok (.done (x s p)))
    (writes : ∀ s p, w.getMut s p = .ok (.done (y s p))) (same : y s p = x s p)
    (value : ∀ q, x s p = some q → ∃ u, s.get? q = some u) (inside : ∀ q, x s p = some q → s.Within p q)
    (stays : ∀ q m v, x s p = some q → s.Within q m → x (s.set m v) p = some q) : r.SteadyLens w s p := by
  have target : w.target? s p = x s p := (target?_of_lent writes).trans same
  refine ⟨partialLens_of_lent reads writes same value fun q v hq => stays q q v hq (.refl s q),
    fun q hq => inside q (target ▸ hq), fun q hq m d base reached v => ?_⟩
  rw [value?, source?_of_lent reads, stays q m v (target ▸ hq) (.inr ⟨d, base, reached⟩), Option.map_some]

end Erased

/-- The accessors that read and write a whole member. -/
def Member.lens (m : Member) (R : Ty) : LensLeg R m.type where
  reader := .of (m.r R)
  writer := .of (m.w R)
  reads := rfl
  writes := rfl

/-- The case accessors that read and write the payload of a case. -/
def UnionCase.lens (c : UnionCase) (U : Ty) : LensLeg U c.type where
  reader := .of (c.caseR U)
  writer := .of (c.caseW U)
  reads := rfl
  writes := rfl

/-- The steps that read and write the payload of a wrapper. -/
def WrapperPath.lens (k : WrapperPath) : LensLeg k.root k.payload where
  reader := .of k.fr
  writer := .of k.fw
  reads := rfl
  writes := rfl

theorem Member.byValue_lens (m : Member) (R : Ty) : (m.lens R).reader.ByValue :=
  Erased.byValue_of_local (Accessor.inward_of_reads rfl (.step _) fun _ _ _ => rfl).isLocal

theorem UnionCase.byValue_lens (c : UnionCase) (U : Ty) : (c.lens U).reader.ByValue :=
  Erased.byValue_of_local (Accessor.inward_of_reads rfl c.localStep_extract fun _ _ _ => rfl).isLocal

theorem WrapperPath.byValue_lens (k : WrapperPath) : k.lens.reader.ByValue :=
  Erased.byValue_of_local (Accessor.inward_of_reads rfl k.wrapper.localStep_read fun _ _ _ => rfl).isLocal

section
variable {s : Store} {p : Place}

theorem Member.steady_lens {m : Member} {R : Ty} {u : Value} (hu : s.get? (m.place p) = some u) :
    (m.lens R).Steady s p := by
  refine Erased.steadyLens_of_lent (x := fun _ p => some (m.place p)) (fun _ _ => rfl) (fun _ _ => rfl) rfl ?_ ?_
    fun q n v hq _ => hq
  · rintro _ ⟨⟩
    exact ⟨u, hu⟩
  · rintro _ ⟨⟩
    exact .inl (p.covers_step _)

theorem UnionCase.steady_lens {c : UnionCase} {U : Ty} (forward : s.Forward p) : (c.lens U).Steady s p := by
  have covers {q : Place} (h : c.extract s p = some q) : p.Covers q ∧ ¬q.Covers p := by
    rw [c.eq_inside_of_extract s p h]
    exact ⟨p.covers_step _, Place.not_covers_of_length (by rw [Place.length_inside]; omega)⟩
  refine Erased.steadyLens_of_lent (x := c.extract) (fun _ _ => rfl) (fun _ _ => rfl) rfl ?_
    (fun q h => .inl (covers h).1) ?_
  · intro q h
    obtain ⟨rfl, v, hv⟩ := (c.extract_eq_some s p).mp h
    exact ⟨v, by rw [Place.inside, Store.get?_step, hv]; rfl⟩
  · intro q n v h within
    have alike := Store.alike_set_within forward (.inl (covers h).1) (covers h).2 within v
    exact (extract_congr alike).symm.trans h

/-- A wrapper that lends its payload for writing, to a sole owner if it is a handle. -/
theorem WrapperPath.steady_lens {k : WrapperPath} (lends : k.wrapper.lendsMut = true) (closed : s.Closed)
    (forward : s.Forward p) (sole : ∀ c ∈ k.wrapper.passed s p, s.liveOwners c = 1) : k.lens.Steady s p := by
  have inside {q : Place} (h : k.wrapper.read s p = some q) : s.Within p q ∧ ¬q.Covers p := by
    by_cases hw : k.wrapper.sharing = .none
    · obtain ⟨covers, length⟩ := Wrapper.read_inside hw h
      exact ⟨.inl covers, Place.not_covers_of_length (by omega)⟩
    · rw [Wrapper.read_of_handle hw, Option.map_eq_some_iff] at h
      obtain ⟨c, hc, rfl⟩ := h
      have reached : Store.Reaches s.cells (s.value p) c := by
        rw [Store.handle?_eq] at hc
        exact Store.reaches_of_cell? hc
      exact ⟨.inr ⟨c, rfl, reached⟩, fun covers => forward c covers.1 reached⟩
  have same : k.wrapper.write s p = k.wrapper.read s p := by
    refine Option.ext fun q => ?_
    rw [Wrapper.write_eq_some_iff lends]
    exact and_iff_left sole
  refine Erased.steadyLens_of_lent (x := k.wrapper.read) (y := k.wrapper.write) (fun _ _ => rfl) (fun _ _ => rfl) same
    (fun q h => Wrapper.exists_get?_of_read closed h) (fun q h => (inside h).1) fun q n v h within => ?_
  have alike := Store.alike_set_within forward (inside h).1 (inside h).2 within v
  exact (Wrapper.read_congr alike).symm.trans h

end

end Accessors
