import Accessors.Collect
import Accessors.Proofs.Session.Taking
import Accessors.Proofs.Store.Spares
import Mathlib.Data.List.Basic
import Mathlib.Data.List.Pairwise

/-! # Collecting by taking

The roots are used up one after the other, so a pointee that they share has fewer and fewer owners: it is copied
for the first of them, and taken away for the last. Whatever the roots share, the values that are taken are those
that were found in the roots before, and nothing changes that others point to. -/

namespace Accessors

/-! ### One root -/

namespace Erased
variable {R V : Ty} {e : Erased R V} {x : Store → Place → Run (Option Place)}
  {y : Store → Value → Run (Store × Option Value)}

theorem exists_find (h : ∀ s p, e.get s p = .ok (x s p)) : ∃ reads : e.flavor.reads = true, e.path.find reads = x := by
  by_cases reads : e.flavor.reads = true
  · refine ⟨reads, funext fun s => funext fun p => ?_⟩
    simpa only [get, reads, ↓reduceDIte, Except.ok.injEq] using h s p
  · have refused := h .empty (.slot 0)
    simp only [get, reads, Bool.false_eq_true, ↓reduceDIte, reduceCtorEq] at refused

theorem exists_findOwned (h : ∀ s v, e.getOwned s v = .ok (y s v)) :
    ∃ owns : e.flavor.owns = true, e.path.findOwned owns = y := by
  by_cases owns : e.flavor.owns = true
  · refine ⟨owns, funext fun s => funext fun v => ?_⟩
    simpa only [getOwned, owns, ↓reduceDIte, Except.ok.injEq] using h s v
  · have refused := h .empty .moved
    simp only [getOwned, owns, Bool.false_eq_true, ↓reduceDIte, reduceCtorEq] at refused

end Erased

namespace Site
variable {a : Site} {R V W : Ty} {er : Erased R V} {eo : Erased R W} {s t : Store} {p q : Place} {u v : Value}
  {c i : Nat}

/-- The place that the reading accessor of a site finds in a root. -/
def lent? (a : Site) (s : Store) (p : Place) : Option Place := (a.placeIn? s p).bind (a.type.read s)

/-- The value that is found in a root. -/
def found? (a : Site) (s : Store) (p : Place) : Option Value := (a.part? (s.value p)).bind (a.type.found s.cells)

theorem map_value_lent? (a : Site) (s : Store) (p : Place) : (a.lent? s p).map s.value = a.found? s p := by
  rw [lent?, found?, ← map_value_placeIn?]
  cases a.placeIn? s p with
  | none => rfl
  | some q => exact a.type.map_value_read s q

theorem owners_part?_le (h : a.part? v = some u) (c : Nat) : u.owners c ≤ v.owners c := by
  cases a with
  | member m =>
    cases h
    cases hc : v.child? (.item m.index) with
    | none => simp
    | some x => exact Value.owners_child_le hc
  | unionCase k =>
    simp only [part?, UnionCase.part?] at h
    split at h
    · split at h
      · cases h
        exact Value.owners_child_le (s := .inside) rfl
      · cases h
    · cases h

theorem reaches_of_found? (h : a.found? s p = some u) (r : Store.Reaches s.cells u c) :
    Store.Reaches s.cells (s.value p) c := by
  obtain ⟨v, part, found⟩ := Option.bind_eq_some_iff.mp h
  exact (Passage.reaches_of_found found r).of_part (owners_part?_le part)

/-- What is found in a root depends on nothing but the root and what it points to. -/
theorem found?_congr (h : s.SameAt t p) (length : t.cells.length = s.cells.length) : a.found? t p = a.found? s p := by
  rw [found?, found?, h.value_eq]
  cases part : a.part? (s.value p) with
  | none => rfl
  | some v => exact Passage.found_congr (h.pointees.of_part (owners_part?_le part)) length

theorem takeIn_keepsHeld (h : s.Exclusive i p.base) : s.KeepsHeld (a.takeIn s p).1 := by
  rw [takeIn]
  cases hq : a.placeIn? s p with
  | none => exact .refl s
  | some q => exact Ty.take_keepsHeld (base_of_placeIn? hq ▸ h)

/-- What is taken out of a root, which is used up. -/
def taken (a : Site) (s : Store) (p : Place) : Store × Option Value :=
  inVariable (s.takeOut p).1 (s.takeOut p).2 a.takeIn

/-- What was taken out of a root stays in a variable of its own. -/
def useUp (a : Site) (s : Store) (p : Place) : Store :=
  (a.taken s p).2.elim (a.taken s p).1 fun v => ((a.taken s p).1.push v).1

/-- What is taken out of a root is what is found in it, and all that it points to stays. -/
theorem took_taken (reachable : a.type.traits.shape.sharedGuard = false) (hp : s.InSlots p) :
    s.Took (a.taken s p) (a.found? s p) := by
  obtain ⟨i, -, hp⟩ := hp
  have cells : (s.takeOut p).1.cells = s.cells := Store.cells_set_of_slot hp .moved
  have took := (Session.took_in reachable (s.takeOut p).1 (s.takeOut p).2).of_cells cells
  rwa [cells] at took

/-- To use up a root changes nothing that anybody else has or points to. -/
theorem taken_spares (ho : a.accessor? R .failableOwned = some (.fixed eo)) (hp : s.InSlots p) :
    s.Spares [p] (a.taken s p).1 := by
  obtain ⟨i, -, hp⟩ := hp
  have given : (s.takeOut p).1.slots.length = s.slots.length := Store.length_slots_set s p .moved
  obtain ⟨takes, -⟩ := getOwned_failableOwned ho (s.takeOut p).1 (s.takeOut p).2
  have confined : ∀ k, (s.takeOut p).1.ConfinedTo k (a.taken s p).1 := (isolated ho).taken takes rfl
  refine ⟨Nat.le_of_eq (given.symm.trans (confined 0).length.symm), fun q ⟨j, hj, hq⟩ apart => ?_, ?_⟩
  · exact (Store.sameAt_set hp (apart p (.head _)) .moved).trans ((confined s.slots.length).sameAt hq (Nat.ne_of_lt hj))
  · have inside := takeIn_keepsHeld (a := a) (s := ((s.takeOut p).1.push (s.takeOut p).2).1)
      (p := ((s.takeOut p).1.push (s.takeOut p).2).2) .slot
    have emptied : s.KeepsHeld (s.takeOut p).1 := Store.Exclusive.set_keepsHeld (i := i) (hp ▸ .slot) .moved
    exact emptied.trans ⟨inside.held, inside.length, inside.pointees⟩

theorem useUp_of_none (h : (a.taken s p).2 = none) : a.useUp s p = (a.taken s p).1 := by
  rw [useUp, h]
  rfl

theorem useUp_of_some (h : (a.taken s p).2 = some v) : a.useUp s p = ((a.taken s p).1.push v).1 := by
  rw [useUp, h]
  rfl

theorem cells_useUp : (a.useUp s p).cells = (a.taken s p).1.cells := by
  rw [useUp]
  cases (a.taken s p).2 <;> rfl

theorem useUp_spares (ho : a.accessor? R .failableOwned = some (.fixed eo)) (hp : s.InSlots p) :
    s.Spares [p] (a.useUp s p) := by
  have taken := taken_spares ho hp
  cases h : (a.taken s p).2 with
  | none => exact useUp_of_none h ▸ taken
  | some v => exact useUp_of_some h ▸ taken.push v

/-- What was taken out of a root is in a variable that is none of those before. -/
theorem exists_place_useUp (ho : a.accessor? R .failableOwned = some (.fixed eo)) (hp : s.InSlots p)
    (h : (a.taken s p).2 = some v) :
    ∃ q, (a.useUp s p).InSlots q ∧ (a.useUp s p).value q = v ∧ ∀ r, s.InSlots r → r.Apart q := by
  rw [useUp_of_some h]
  refine ⟨((a.taken s p).1.push v).2, ⟨_, ?_, rfl⟩, Store.value_push _ v, fun r ⟨j, hj, hr⟩ => .of_base fun he => ?_⟩
  · simp [Store.push]
  · have := (taken_spares ho hp).length
    cases hr.symm.trans he
    omega

end Site

/-! ### All roots -/

namespace Accessor
variable {f : Flavor} {R V : Ty} {k : Accessor f R V} {s : Store}

/-- An accessor that always ends with a place or with nothing collects what it finds. -/
theorem collect_eq {h : f.reads = true} {find : Store → Place → Option Place}
    (finds : k.find h = fun s p => .done (find s p)) (ps : List Place) :
    k.collect h s ps = .done (ps.filterMap (find s)) := by
  induction ps with
  | nil => rfl
  | cons p ps ih =>
    rw [collect, finds, Run.done_andThen, ih, List.filterMap_cons]
    cases find s p <;> rfl

end Accessor

namespace Site
variable {a : Site} {R V W : Ty} {er : Erased R V} {eo : Erased R W} {s t after : Store} {p q : Place}
  {ps : List Place} {u v : Value} {vs ws : List Value}

/-- What is left after values were taken out of some roots: the values are those found in the roots before, all
    that they point to stays, and nothing changes for others. -/
structure Drained (a : Site) (s : Store) (ps : List Place) (after : Store) (vs : List Value) : Prop where
  values : vs = ps.filterMap (a.found? s)
  pointees : ∀ v ∈ vs, Store.SamePointee v s.cells after.cells
  spares : s.Spares ps after

theorem Drained.cons (ho : a.accessor? R .failableOwned = some (.fixed eo)) (roots : s.Separate (p :: ps))
    (took : s.Took (a.taken s p) (a.found? s p)) (rest : Drained a (a.useUp s p) ps after vs) :
    Drained a s (p :: ps) after ((a.found? s p).toList ++ vs) := by
  have used : s.InSlots p := roots.inSlots p (.head _)
  have spares := useUp_spares ho used
  have others : ∀ q ∈ ps, s.SameAt (a.useUp s p) q := fun q hq =>
    spares.others q (roots.inSlots q (.tail _ hq)) fun r hr =>
      List.mem_singleton.mp hr ▸ (List.pairwise_cons.mp roots.apart).1 q hq
  have found : ∀ q ∈ ps, a.found? (a.useUp s p) q = a.found? s q := fun q hq =>
    found?_congr (others q hq) spares.held.length
  have values : vs = ps.filterMap (a.found? s) := rest.values.trans (List.filterMap_congr found)
  refine ⟨?_, fun v hv => ?_, spares.trans rest.spares (by simp) (List.subset_cons_self _ _)⟩
  · rw [values, List.filterMap_cons]
    cases a.found? s p <;> rfl
  · rcases List.mem_append.mp hv with here | later
    · have here : a.found? s p = some v := Option.mem_toList.mp here
      have kept : Store.SamePointee v s.cells (a.taken s p).1.cells := took.pointees v here
      have taken : (a.taken s p).2 = some v := took.found.trans here
      obtain ⟨q, hq, rfl, apart⟩ := exists_place_useUp ho used taken
      have stays := (rest.spares.others q hq fun r hr => apart r (roots.inSlots r (.tail _ hr))).pointees
      rw [cells_useUp] at stays
      exact kept.trans stays
    · obtain ⟨q, hq, here⟩ := List.mem_filterMap.mp (values ▸ later)
      have kept : Store.SamePointee v s.cells (a.useUp s p).cells := fun c x r =>
        (others q hq).pointees c x (reaches_of_found? here r)
      exact kept.trans (rest.pointees v later)

theorem collectOwned_cons {owns : eo.flavor.owns = true}
    (takes : eo.path.findOwned owns (s.takeOut p).1 (s.takeOut p).2 = .done (a.taken s p)) :
    eo.path.collectOwned owns (p :: ps) s =
      (eo.path.collectOwned owns ps (a.useUp s p)).map fun r => (r.1, (a.taken s p).2.toList ++ r.2) := by
  rw [Accessor.collectOwned, takes, Run.done_andThen, useUp]
  rcases a.taken s p with ⟨s', _ | v⟩
  · exact (Run.andThen_done _).symm
  · rfl

/-- The owning accessor of a site takes out of the roots what is found in them before the first one is used up. -/
theorem collectOwned_drained (ho : a.accessor? R .failableOwned = some (.fixed eo)) (ps : List Place) :
    ∃ owns : eo.flavor.owns = true, ∀ s, s.Separate ps → ∃ after vs,
      eo.path.collectOwned owns ps s = .done (after, vs) ∧ Drained a s ps after vs := by
  have gives := getOwned_failableOwned ho
  obtain ⟨owns, takes⟩ := Erased.exists_findOwned fun s v => (gives s v).1
  refine ⟨owns, ?_⟩
  -- By induction on the roots, for any store: the rest are used up in what the first one leaves.
  induction ps with
  | nil => exact fun s _ => ⟨s, [], rfl, rfl, (fun _ hv => nomatch hv), .refl s []⟩
  | cons p ps ih =>
    intro s roots
    have used : s.InSlots p := roots.inSlots p (.head _)
    have took := took_taken (a := a) (gives s .moved).2 used
    obtain ⟨after, vs, rest, drained⟩ := ih (a.useUp s p) (roots.tail (useUp_spares ho used).length)
    refine ⟨after, _, ?_, drained.cons ho roots took⟩
    rw [collectOwned_cons (congrFun (congrFun takes _) _), rest, took.found]
    rfl

/-! ### Reading and taking -/

/-- The roots as they are given away, themselves or copies of them: a hash set at the site may have its elements in
    another order. -/
inductive Relists (a : Site) (ps : List Place) (s : Store) : Store → Prop
  | same : Relists a ps s s
  | reordered {t : Store} {p q : Place} {vs ws : List Value} (before : Relists a ps s t)
      (hash : a.type.wrapper? = some .hashSet) (root : p ∈ ps) (place : a.placeIn? t p = some q)
      (items : t.get? q = some (.items vs)) (perm : ws.Perm vs) : Relists a ps s (t.set q (.items ws))

/-- What a site has is the same, or it is a hash set in another order. -/
def Reorders (a : Site) (u w : Option Value) : Prop :=
  w = u ∨ a.type.wrapper? = some .hashSet ∧
    ∃ vs ws, u = some (.items vs) ∧ w = some (.items ws) ∧ ws.Perm vs

theorem Reorders.trans {u v w : Option Value} (h : a.Reorders u v) (h' : a.Reorders v w) : a.Reorders u w := by
  rcases h with rfl | ⟨hash, xs, ys, rfl, rfl, perm⟩
  · exact h'
  · rcases h' with rfl | ⟨-, ys', zs, hys, rfl, perm'⟩
    · exact .inr ⟨hash, xs, ys, rfl, rfl, perm⟩
    · cases hys
      exact .inr ⟨hash, xs, zs, rfl, rfl, perm'.trans perm⟩

theorem covers_of_placeIn? (h : a.placeIn? s p = some q) : p.Covers q := by
  cases a with
  | member m =>
    cases h
    exact p.covers_step _
  | unionCase c => exact c.eq_inside_of_extract s p h ▸ p.covers_step _

/-- In roots that are given away all is as before, except for the order of the hash sets at the site. -/
structure AlikeRoots (a : Site) (ps : List Place) (s t : Store) : Prop where
  spares : s.Spares ps t
  cells : t.cells = s.cells
  parts : ∀ p ∈ ps, a.Reorders (a.part? (s.value p)) (a.part? (t.value p))

theorem Relists.alikeRoots (h : Relists a ps s t) (roots : s.Separate ps) : AlikeRoots a ps s t := by
  induction h with
  | same => exact ⟨.refl s ps, rfl, fun _ _ => .inl rfl⟩
  | @reordered t p q vs ws before hash root place items perm ih =>
    obtain ⟨i, -, base⟩ := roots.inSlots p root
    have inside := covers_of_placeIn? place
    have slot : q.base = .slot i := inside.1.trans base
    have cells : (t.set q (.items ws)).cells = t.cells := Store.cells_set_of_slot slot _
    have elsewhere : ∀ r, p.Apart r → t.SameAt (t.set q (.items ws)) r := fun r apart =>
      Store.sameAt_set slot (apart.of_covers inside) _
    have spares : t.Spares ps (t.set q (.items ws)) :=
      ⟨Nat.le_of_eq (Store.length_slots_set t q _).symm, fun r _ apart => elsewhere r (apart p root),
        Store.Exclusive.set_keepsHeld (i := i) (slot ▸ .slot) _⟩
    refine ⟨ih.spares.trans spares (List.Subset.refl _) (List.Subset.refl _), cells.trans ih.cells, fun r hr => ?_⟩
    refine (ih.parts r hr).trans ?_
    by_cases same : r = p
    · subst same
      refine .inr ⟨hash, vs, ws, ?_, ?_, perm⟩
      · rw [← map_value_placeIn?, place, Option.map_some, Store.value_eq items]
      · rw [← map_value_placeIn?, placeIn?_set place, Option.map_some, Store.value_eq (Store.get?_set items)]
    · have : Std.Symm Place.Apart := ⟨fun _ _ => .symm⟩
      have apart := roots.apart.forall root hr (Ne.symm same)
      exact .inl (congrArg a.part? (elsewhere r apart).value_eq)

/-- What is taken out of a root is what is read in it. Of a hash set any element is read, and any one is taken. -/
structure TakenAs (a : Site) (s : Store) (p q : Place) (v : Value) : Prop where
  same : a.type.wrapper? ≠ some .hashSet → v = s.value q
  elements : a.type.wrapper? = some .hashSet → ∃ r, a.placeIn? s p = some r ∧ s.value q ∈ s.items r ∧ v ∈ s.items r

theorem mem_list_of_found? (hash : a.type.wrapper? = some .hashSet) (h : a.found? s p = some v) :
    ∃ u, a.part? (s.value p) = some u ∧ v ∈ u.list := by
  obtain ⟨u, part, found⟩ := Option.bind_eq_some_iff.mp h
  rw [Ty.found_of_hashSet hash] at found
  exact ⟨u, part, List.mem_of_getElem? found⟩

theorem Reorders.perm {w : Value} (h : a.Reorders (some u) (some w)) : w.list.Perm u.list := by
  rcases h with same | ⟨-, vs, ws, hu, hw, perm⟩
  · cases same
    exact .refl _
  · cases hu
    cases hw
    exact perm

section
variable (cells : t.cells = s.cells) (parts : a.Reorders (a.part? (s.value p)) (a.part? (t.value p)))
include cells parts

/-- A root has something for the one who takes exactly if it has something for the one who reads. -/
theorem isSome_found? : (a.found? t p).isSome = (a.lent? s p).isSome := by
  have reads : (a.lent? s p).isSome = (a.found? s p).isSome := by rw [← map_value_lent?, Option.isSome_map]
  rw [reads, found?, found?, cells]
  rcases parts with same | ⟨hash, vs, ws, hs, ht, perm⟩
  · rw [same]
  · rw [hs, ht, Option.bind_some, Option.bind_some, Ty.found_of_hashSet hash, Ty.found_of_hashSet hash,
      Bool.eq_iff_iff, isSome_getElem?, isSome_getElem?]
    exact Iff.of_eq (congrArg (0 < ·) perm.length_eq)

theorem takenAs (lent : a.lent? s p = some q) (takes : a.found? t p = some v) : TakenAs a s p q v := by
  have reads : a.found? s p = some (s.value q) := by rw [← map_value_lent?, lent, Option.map_some]
  refine ⟨fun known => ?_, fun hash => ?_⟩
  · rcases parts with same | ⟨hash, -⟩
    · rw [found?, same, cells] at takes
      exact Option.some.inj (takes.symm.trans reads)
    · exact absurd hash known
  · obtain ⟨u, hu, here⟩ := mem_list_of_found? hash reads
    obtain ⟨w, hw, there⟩ := mem_list_of_found? hash takes
    obtain ⟨r, hr, items⟩ := exists_items hu
    rw [hu, hw] at parts
    exact ⟨r, hr, items ▸ here, items ▸ parts.perm.mem_iff.mp there⟩

end

/-- What is found in some roots and what is taken out of them, root by root: a root in which nothing is found is
    skipped, and nothing is taken out of it either. -/
inductive InTurn (a : Site) (er : Erased R V) (s : Store) : List Place → List Place → List Value → Prop
  | nil : InTurn a er s [] [] []
  | skipped {p : Place} {ps found : List Place} {taken : List Value} (nothing : er.get s p = .ok (.done none))
      (rest : InTurn a er s ps found taken) : InTurn a er s (p :: ps) found taken
  | taken {p q : Place} {v : Value} {ps found : List Place} {taken : List Value}
      (lent : er.get s p = .ok (.done (some q))) (alike : TakenAs a s p q v) (rest : InTurn a er s ps found taken) :
      InTurn a er s (p :: ps) (q :: found) (v :: taken)

theorem InTurn.same {found : List Place} (h : InTurn a er s ps found vs) (known : a.type.wrapper? ≠ some .hashSet) :
    vs = found.map s.value := by
  induction h with
  | nil => rfl
  | skipped _ _ ih => exact ih
  | taken _ alike _ ih => rw [List.map_cons, alike.same known, ih]

theorem AlikeRoots.inTurn (h : AlikeRoots a ps s t) (hr : a.accessor? R .failableReadable = some (.fixed er)) :
    InTurn a er s ps (ps.filterMap (a.lent? s)) (ps.filterMap (a.found? t)) := by
  obtain ⟨-, cells, parts⟩ := h
  induction ps with
  | nil => exact .nil
  | cons p ps ih =>
    have here := parts p (.head _)
    have rest := ih fun q hq => parts q (.tail _ hq)
    have get : er.get s p = .ok (.done (a.lent? s p)) := get_failableReadable hr s p
    have both := isSome_found? cells here
    rw [List.filterMap_cons, List.filterMap_cons]
    cases lent : a.lent? s p with
    | none =>
      rw [lent] at both get
      have absent : a.found? t p = none := by simpa using both
      rw [absent]
      exact .skipped get rest
    | some q =>
      rw [lent] at both get
      obtain ⟨v, takes⟩ := Option.isSome_iff_exists.mp both
      rw [takes]
      exact .taken get (takenAs cells here lent takes) rest

/-- What holds of the values that are taken out of some roots, and of the places that were found in the roots
    before. -/
structure CollectedAsRead (a : Site) (er : Erased R V) (s : Store) (ps found : List Place) (after : Store)
    (taken : List Value) : Prop where
  inTurn : InTurn a er s ps found taken
  same : a.type.wrapper? ≠ some .hashSet → taken = found.map s.value
  /-- What the values point to is as it was. -/
  pointees : ∀ v ∈ taken, Store.SamePointee v s.cells after.cells
  /-- Other variables and the outside owners have what they had, and what they point to is as it was. -/
  spares : s.Spares ps after

/-- Whatever some roots share with each other and with others, the owning accessor of a site takes out of them, in
    their order, what the reading one finds in them before, and nothing changes that others own. -/
theorem collectOwned_agrees (hr : a.accessor? R .failableReadable = some (.fixed er))
    (ho : a.accessor? R .failableOwned = some (.fixed eo)) (roots : s.Separate ps) (given : Relists a ps s t) :
    ∃ (reads : er.flavor.reads = true) (owns : eo.flavor.owns = true) (found : List Place) (after : Store)
      (taken : List Value), er.path.collect reads s ps = .done found ∧
        eo.path.collectOwned owns ps t = .done (after, taken) ∧ CollectedAsRead a er s ps found after taken := by
  obtain ⟨reads, finds⟩ := Erased.exists_find (get_failableReadable hr)
  obtain ⟨owns, takes⟩ := collectOwned_drained ho ps
  have alike := given.alikeRoots roots
  obtain ⟨after, taken, collects, values, pointees, spares⟩ := takes t
    ⟨fun p hp => (roots.inSlots p hp).mono alike.spares.length, roots.apart⟩
  have inTurn := alike.inTurn hr
  rw [← values] at inTurn
  rw [alike.cells] at pointees
  exact ⟨reads, owns, _, after, taken, Accessor.collect_eq finds ps, collects, inTurn, inTurn.same, pointees,
    alike.spares.trans spares (List.Subset.refl _) (List.Subset.refl _)⟩

/-- Two roots share a cell, one shares its cell with a variable and with an outside owner, and one owns nothing. -/
theorem collectOwned_agrees_counts : ∃ s : Store, s.Separate ((List.range 4).map (Place.slot 0).item) ∧
    ∃ found after taken,
      (Member.fr ⟨"count", 0, .wrap .shared (.plain "int"), .all⟩ (.plain "w::Shop")).collect rfl s
        ((List.range 4).map (Place.slot 0).item) = .done found ∧
      (Member.fo ⟨"count", 0, .wrap .shared (.plain "int"), .all⟩ (.plain "w::Shop")).collectOwned rfl
        ((List.range 4).map (Place.slot 0).item) s = .done (after, taken) ∧
      CollectedAsRead (.member ⟨"count", 0, .wrap .shared (.plain "int"), .all⟩)
        (.of (Member.fr ⟨"count", 0, .wrap .shared (.plain "int"), .all⟩ (.plain "w::Shop"))) s
        ((List.range 4).map (Place.slot 0).item) found after taken := by
  let s : Store := ⟨[.items [.items [.shared 0], .items [.empty], .items [.shared 1], .items [.shared 0]], .shared 1],
    [.int 5, .int 6], [1]⟩
  have roots : s.Separate ((List.range 4).map (Place.slot 0).item) :=
    ⟨fun p hp => by
      obtain ⟨i, -, rfl⟩ := List.mem_map.mp hp
      exact ⟨0, by decide, rfl⟩, by decide⟩
  obtain ⟨_, _, found, after, taken, reads, takes, agree⟩ := collectOwned_agrees
    (a := .member ⟨"count", 0, .wrap .shared (.plain "int"), .all⟩) (R := .plain "w::Shop") rfl rfl roots .same
  exact ⟨s, roots, found, after, taken, reads, takes, agree⟩

/-- The value of the shared cell is copied for the first root, and taken away for the last one. -/
example : (Member.fo ⟨"count", 0, .wrap .shared (.plain "int"), .all⟩ (.plain "w::Shop")).collectOwned rfl
    ((List.range 4).map (Place.slot 0).item)
    ⟨[.items [.items [.shared 0], .items [.empty], .items [.shared 1], .items [.shared 0]], .shared 1],
      [.int 5, .int 6], [1]⟩ =
    .done (⟨[.items [.moved, .moved, .moved, .moved], .shared 1, .int 5, .int 6, .int 5], [.moved, .int 6], [1]⟩,
      [.int 5, .int 6, .int 5]) := rfl

end Site
end Accessors
