import Accessors.Proofs.Accessor.Compose
import Accessors.Proofs.Session.Uses
import Accessors.Proofs.Ty.Found
import Accessors.Wrapper.Paths

/-! # Accessors look at values

The declared accessors of wrappers, members and cases look at nothing but the value that they are given and what that
value reaches. So it makes no difference to them that a value is taken out of a larger one, if the rest reaches none
of its cells. -/

namespace Accessors

namespace Store
variable {s t : Store} {p q : Place} {c d : Nat} {u v : Value} {counted : Bool}

theorem SameReach.mono (h : SameReach counted v s t) (part : ∀ {c}, Reaches s.cells u c → Reaches s.cells v c) :
    SameReach counted u s t :=
  ⟨fun c r => h.cells c (part r), fun hc c r => h.owners hc c (part r)⟩

/-- What is inside a value reaches no more than the value. -/
theorem Reaches.of_covers (h : p.Covers q) (r : Reaches s.cells (s.value q) c) : Reaches s.cells (s.value p) c := by
  refine r.of_part fun d => ?_
  obtain ⟨b, ss⟩ := p
  obtain ⟨b', ss'⟩ := q
  obtain ⟨base, ts, path⟩ := h
  cases base
  have path : ss' = ss ++ ts := path.symm
  subst path
  simp only [value, get?]
  cases s.root? b with
  | none => exact Nat.le_refl _
  | some w =>
    simp only [Option.bind_some, Value.get?_append]
    cases w.get? ss with
    | none => exact Nat.le_refl _
    | some x =>
      cases hu : x.get? ts with
      | none =>
        simp only [Option.bind_some, hu, Option.getD_none, Value.owners_moved]
        exact Nat.zero_le _
      | some y =>
        simp only [Option.bind_some, hu, Option.getD_some]
        exact Value.owners_get?_le hu

/-- What is in a cell that a value reaches reaches no more than the value. -/
theorem Reaches.of_base (r : Reaches s.cells v d) (hq : q.base = .cell d) (r' : Reaches s.cells (s.value q) c) :
    Reaches s.cells v c := by
  have whole : (Place.cell d).Covers q := ⟨hq, List.nil_prefix⟩
  have r' := r'.of_covers whole
  rw [value_cell] at r'
  cases hd : s.cells[d]? with
  | none =>
    rw [hd] at r'
    exact absurd r' (not_reaches_of_no_handles Value.owners_moved)
  | some w =>
    rw [hd] at r'
    exact r.through_cell hd r'

end Store

/-- A step that looks at nothing but a value and what it reaches, and leads to what is inside or is reached. -/
structure LocalStep (counted : Bool) (x : Store → Place → Option Place) : Prop where
  found : ∀ {s t : Store} {p q : Place}, s.value p = t.value q → Store.SameReach counted (s.value p) s t →
    (x s p).map s.value = (x t q).map t.value
  reach : ∀ {s : Store} {p m : Place} {c : Nat}, x s p = some m → Store.Reaches s.cells (s.value m) c →
    Store.Reaches s.cells (s.value p) c

namespace LocalStep
variable {counted : Bool} {x y : Store → Place → Option Place}

theorem none : LocalStep counted fun _ _ => Option.none :=
  ⟨fun _ _ => rfl, fun h => nomatch h⟩

theorem some : LocalStep counted fun _ p => Option.some p :=
  ⟨fun hv _ => congrArg Option.some hv, fun h r => Option.some.inj h ▸ r⟩

theorem bind (hx : LocalStep counted x) (hy : LocalStep counted y) : LocalStep counted fun s p => (x s p).bind (y s) where
  found {s t p q} hv same := by
    have mid := hx.found hv same
    cases hm : x s p with
    | none =>
      rw [hm] at mid
      rw [Option.map_eq_none_iff.mp mid.symm]
      rfl
    | some m =>
      rw [hm] at mid
      obtain ⟨n, hn, value⟩ := Option.map_eq_some_iff.mp mid.symm
      rw [hn]
      exact hy.found value.symm (same.mono (hx.reach hm))
  reach {s p m c} h r := by
    obtain ⟨n, hn, hm⟩ := Option.bind_eq_some_iff.mp h
    exact hx.reach hn (hy.reach hm r)

theorem step (a : Value.Step) : LocalStep counted fun _ p => Option.some (p.step a) where
  found {s t p q} hv _ := congrArg Option.some (by rw [s.value_step, t.value_step, hv])
  reach {s p m c} h r := Store.Reaches.of_covers (p.covers_step a) (Option.some.inj h ▸ r)

/-- A step further in that looks at the value alone. -/
theorem of_inside (found : ∀ {s t : Store} {p q : Place}, s.value p = t.value q →
      (x s p).map s.value = (x t q).map t.value) (covers : ∀ {s p m}, x s p = Option.some m → p.Covers m) :
    LocalStep counted x :=
  ⟨fun hv _ => found hv, fun h r => r.of_covers (covers h)⟩

end LocalStep

namespace Store
variable {s : Store} {p : Place} {c d : Nat}

theorem reaches_of_cell? (h : (s.value p).cell? = some c) : Reaches s.cells (s.value p) c :=
  .owned (Value.owners_pos_of_cell? h)

theorem reaches_of_handle? (h : s.handle? p = some c) (r : Reaches s.cells (s.value (.cell c)) d) :
    Reaches s.cells (s.value p) d := by
  rw [handle?_eq] at h
  exact (reaches_of_cell? h).of_base rfl r

end Store

namespace Wrapper
variable {counted : Bool} (w : Wrapper) (pos : Position)

theorem localStep_read : LocalStep counted w.read := by
  by_cases hw : w.sharing = .none
  · refine .of_inside (fun {s t p q} hv => ?_) fun h => (read_inside hw h).1
    rw [map_value_read, map_value_read, hv]
    exact found_eq_of_inside hw _
  · refine ⟨fun {s t p q} hv same => ?_, fun {s p m c} h r => ?_⟩
    · rw [map_value_read, map_value_read, found_of_handle hw, found_of_handle hw, ← hv]
      cases hc : (s.value p).cell? with
      | none => rfl
      | some c => rw [Option.map_some, Option.map_some, same.cells c (Store.reaches_of_cell? hc)]
    · rw [read_of_handle hw] at h
      obtain ⟨d, hd, rfl⟩ := Option.map_eq_some_iff.mp h
      exact Store.reaches_of_handle? hd r

theorem write_eq_none (lends : w.lendsMut = false) (s : Store) (p : Place) :
    w.write s p = none := by
  cases w <;> first | rfl | cases lends

theorem localStep_write : LocalStep true w.write := by
  by_cases hw : w.sharing = .none
  · cases lends : w.lendsMut with
    | true =>
      have same : w.write = w.read := funext₂ fun s p => write_eq_read hw lends
      exact same ▸ w.localStep_read
    | false =>
      have nothing : w.write = fun _ _ => none := funext₂ (w.write_eq_none lends)
      exact nothing ▸ .none
  · refine ⟨fun {s t p q} hv same => ?_, fun {s p m c} h r => ?_⟩
    · rw [write_of_handle hw, write_of_handle hw, s.handle?_eq, t.handle?_eq, ← hv]
      cases hc : (s.value p).cell? with
      | none => rfl
      | some c =>
        have reached := Store.reaches_of_cell? hc
        simp only [Option.bind_some, ← same.owners rfl c reached]
        split
        · simp only [Option.map_some, Store.value_cell, same.cells c reached]
        · rfl
    · rw [write_of_handle hw] at h
      obtain ⟨d, hd, hm⟩ := Option.bind_eq_some_iff.mp h
      split at hm
      · cases hm
        exact Store.reaches_of_handle? hd r
      · cases hm

theorem localStep_item (i : Nat) : LocalStep counted fun s p => s.item? p i := by
  refine .of_inside (fun {s t p q} hv => ?_) fun {s p m} h => ?_
  · rw [Store.map_value_item?, Store.map_value_item?, hv]
  · obtain ⟨rfl, -⟩ := Store.item?_eq_some.mp h
    exact p.covers_step _

theorem localStep_bound (k : Value) : LocalStep counted fun s p => s.bound? p k := by
  refine .of_inside (fun {s t p q} hv => ?_) fun {s p m} h => ?_
  · simp only [Store.bound?_eq, Store.items_eq, Option.map_map, Function.comp_def, Place.inside, Store.value_step,
      Store.value_item, hv]
  · obtain ⟨i, v, rfl, -⟩ := Store.bound?_eq_some h
    exact (p.covers_step _).trans ((p.item i).covers_step _)

theorem localStep_element (k : Value) : LocalStep counted fun s p => s.element? p k := by
  refine .of_inside (fun {s t p q} hv => ?_) fun {s p m} h => ?_
  · simp only [Store.element?, Store.items_eq, Option.map_map, Function.comp_def, Store.value_item, hv]
  · obtain ⟨i, -, rfl⟩ := Option.map_eq_some_iff.mp h
    exact p.covers_step _

theorem localStep_readAt : LocalStep counted (w.readAt pos) := by
  cases w <;> cases pos <;>
    first
    | exact localStep_item _
    | exact localStep_bound _
    | exact localStep_element _
    | exact .none

theorem localStep_writeAt : LocalStep counted (w.writeAt pos) := by
  cases w <;> cases pos <;>
    first
    | exact localStep_item _
    | exact localStep_bound _
    | exact .none

end Wrapper

namespace Ty
variable {counted : Bool} (t : Ty) (pos : Position)

theorem localStep_read : LocalStep counted t.read := by
  have passes : ∀ ws : List Wrapper, LocalStep counted fun s p => Passage.read s ws p := by
    intro ws
    induction ws with
    | nil => exact .some
    | cons w ws ih => exact w.localStep_read.bind ih
  have same : t.read = fun s p => Passage.read s t.passage p := funext₂ t.read_eq_passage
  exact same ▸ passes t.passage

theorem localStep_write : LocalStep true t.write := by
  have passes : ∀ ws : List Wrapper, LocalStep true fun s p => Passage.write s ws p := by
    intro ws
    induction ws with
    | nil => exact .some
    | cons w ws ih => exact w.localStep_write.bind ih
  have same : t.write = fun s p => Passage.write s t.passage p := funext₂ t.write_eq_passage
  exact same ▸ passes t.passage

theorem localStep_readAt : LocalStep counted (t.readAt pos) := by
  cases t with
  | plain n => exact .none
  | wrap w t =>
    unfold readAt
    cases (wrap w t).mergedPair? with
    | none => exact w.localStep_readAt pos
    | some pair =>
      by_cases outer : w.positional = true
      · simp only [outer, ↓reduceIte]
        exact (w.localStep_readAt pos).bind pair.2.localStep_read
      · simp only [outer, Bool.false_eq_true, ↓reduceIte]
        exact w.localStep_read.bind (pair.2.localStep_readAt pos)

theorem localStep_writeAt : LocalStep true (t.writeAt pos) := by
  cases t with
  | plain n => exact .none
  | wrap w t =>
    unfold writeAt
    cases (wrap w t).mergedPair? with
    | none => exact w.localStep_writeAt pos
    | some pair =>
      by_cases outer : w.positional = true
      · simp only [outer, ↓reduceIte]
        exact (w.localStep_writeAt pos).bind pair.2.localStep_write
      · simp only [outer, Bool.false_eq_true, ↓reduceIte]
        exact w.localStep_write.bind (pair.2.localStep_writeAt pos)

end Ty

namespace UnionCase

theorem localStep_extract {counted : Bool} (c : UnionCase) : LocalStep counted c.extract := by
  refine .of_inside (fun {s t p q} hv => ?_) fun {s p m} h => ?_
  · rw [c.map_value_extract, c.map_value_extract, hv]
  · exact c.eq_inside_of_extract s p h ▸ p.covers_step _

end UnionCase

/-! ### Functions that lend -/

/-- A function that lends what it finds, and looks at nothing but a value and what it reaches to find it there. -/
structure LocalUse (counted : Bool) (x : Borrow) : Prop where
  found : ∀ {s t : Store} {p q : Place}, s.value p = t.value q → Store.SameReach counted (s.value p) s t →
    (x s p).map (·.map s.value) = (x t q).map (·.map t.value)
  reach : ∀ {s : Store} {p m : Place} {c : Nat}, (x s p).outcome = .ok (some m) →
    Store.Reaches s.cells (s.value m) c → Store.Reaches s.cells (s.value p) c

namespace LocalUse
variable {counted : Bool} {x y : Borrow}

theorem of_step {z : Store → Place → Option Place} (hz : LocalStep counted z) (does : ∀ s p, x s p = .done (z s p)) :
    LocalUse counted x where
  found hv same := by rw [does, does, Run.map_done, Run.map_done, hz.found hv same]
  reach {s p m c} h r := by
    rw [does] at h
    exact hz.reach (Except.ok.inj h) r

theorem andThen (hx : LocalUse counted x) (hy : LocalUse counted y) :
    LocalUse counted fun s p => (x s p).andThen fun m => m.elim (.done none) (y s) where
  found {s t p q} hv same := by
    have mid := hx.found hv same
    have reach := fun m c => hx.reach (s := s) (p := p) (m := m) (c := c)
    rw [Run.map_eq, Run.map_eq, Run.mk.injEq] at mid
    rw [Run.andThen_map, Run.andThen_map]
    generalize x s p = r at mid reach ⊢
    generalize x t q = r' at mid ⊢
    obtain ⟨calls, o⟩ := r
    obtain ⟨calls', o'⟩ := r'
    obtain ⟨rfl, outcome⟩ := mid
    cases o with
    | error e =>
      cases o' with
      | error e' =>
        cases outcome
        rfl
      | ok n => cases outcome
    | ok m =>
      cases o' with
      | error e' => cases outcome
      | ok n =>
        have value : m.map s.value = n.map t.value := Except.ok.inj outcome
        cases m with
        | none =>
          rw [Option.map_eq_none_iff.mp value.symm]
          rfl
        | some m =>
          obtain ⟨n, rfl, there⟩ := Option.map_eq_some_iff.mp value.symm
          have next := hy.found there.symm (same.mono (reach m _ rfl))
          simp only [Run.andThen, Option.elim_some, next]
  reach {s p m c} h r := by
    rcases Run.outcome_andThen.mp h with ⟨a, ha, hm⟩ | ⟨e, -, he⟩
    · cases a with
      | none => cases hm
      | some n => exact hx.reach ha (hy.reach hm r)
    · cases he

end LocalUse

/-! ### Declared accessors -/

namespace Accessor
variable {f g k : Flavor} {R M V : Ty} {a : Accessor f R M} {c : Accessor f M V} {x y : Store → Place → Option Place}

/-- A local accessor that stays with what the value has inside or reaches. -/
structure Inward (c : Accessor f M V) : Prop where
  read : ∀ h : f.reads = true, LocalUse false (c.find h)
  write : ∀ h : f.writes = true, LocalUse true (c.findMut h)

theorem Inward.isLocal (h : c.Inward) : c.Local :=
  ⟨fun hr => (h.read hr).found, fun hw => (h.write hw).found⟩

theorem Inward.compose {b : Accessor g M V} (ha : a.Inward) (hb : b.Inward) (h : f.compose g = some k) :
    (a.compose b h).Inward where
  read hk := by
    obtain ⟨hf, hg⟩ := Flavor.reads_of_compose h hk
    have same := funext₂ (find_compose a b h hk)
    exact same ▸ (ha.read hf).andThen (hb.read hg)
  write hk := by
    obtain ⟨hf, hg⟩ := Flavor.writes_of_compose h hk
    have same := funext₂ (findMut_compose a b h hk)
    exact same ▸ (ha.write hf).andThen (hb.write hg)

theorem inward_of_reads (hw : f.writes = false) (hx : LocalStep false x)
    (finds : ∀ h s p, c.find h s p = .done (x s p)) : c.Inward where
  read h := .of_step hx (finds h)
  write h := by
    rw [hw] at h
    cases h

theorem inward_of_writes (hr : f.reads = false) (hy : LocalStep true y)
    (finds : ∀ h s p, c.findMut h s p = .done (y s p)) : c.Inward where
  read h := by
    rw [hr] at h
    cases h
  write h := .of_step hy (finds h)

theorem inward_of_owns (hr : f.reads = false) (hw : f.writes = false) : c.Inward where
  read h := by
    rw [hr] at h
    cases h
  write h := by
    rw [hw] at h
    cases h

/-- What an accessor finds in a value is apart from the rest of the value if the two reach no cell in common. -/
theorem apart_of_disjoint {s : Store} {m : Value} (h : ∀ hf q,
    (c.findMut hf (s.push m).1 (s.push m).2).outcome = .ok (some q) → q.base = .slot s.slots.length ∧
      ∀ d, Store.Reaches s.cells ((s.push m).1.value q) d → ¬Store.Reaches s.cells (m.set q.path .moved) d) :
    c.Apart s m := by
  intro hf q hq
  obtain ⟨base, disjoint⟩ := h hf q hq
  generalize hu : (s.push m).1.value q = u at disjoint
  have rest : ((s.push m).1.takeOut q).1 = (s.push (m.set q.path .moved)).1 := Store.set_push base .moved
  -- In a variable of its own, what is found has the same owners, and needs the variable with the rest no longer.
  have own : (s.push m).1.Agrees ((s.push (m.set q.path .moved)).1.push u).1 := by
    rw [← rest, ← hu]
    exact Store.agrees_takeOut base
  have swap : ((s.push (m.set q.path .moved)).1.push u).1.Agrees ((s.push u).1.push (m.set q.path .moved)).1 := by
    refine ⟨rfl, rfl, fun d => ?_⟩
    simp only [Store.ownersIn_push]
    omega
  rw [rest, Store.pop_push]
  refine ⟨fun _ _ => rfl, fun _ d r => ?_⟩
  rw [own.owners_eq, swap.owners_eq]
  exact Store.owners_push_of_not_reaches (disjoint d r)

end Accessor

namespace WrapperPath
variable {k : WrapperPath} {f : Flavor}
open Accessor

theorem inward_step {e : Erased k.root k.payload} (h : k.step? f = some e) : e.path.Inward := by
  unfold step? at h
  cases f <;> simp only [reduceCtorEq] at h <;> split at h <;> cases h
  · exact inward_of_reads rfl (.step .inside) fun _ _ _ => rfl
  · exact inward_of_writes rfl (.step .inside) fun _ _ _ => rfl
  · exact inward_of_reads rfl k.wrapper.localStep_read fun _ _ _ => rfl
  · exact inward_of_writes rfl k.wrapper.localStep_write fun _ _ _ => rfl
  · exact inward_of_owns rfl rfl
  · exact inward_of_owns rfl rfl

theorem inward_stepAt {t : PositionType} {V : Ty} {path : Position → Erased k.root V}
    (h : k.stepAt? f = some (.positional t path)) (pos : Position) : (path pos).path.Inward := by
  unfold stepAt? at h
  split at h
  · cases h
    exact inward_of_reads rfl (k.wrapper.localStep_readAt pos) fun _ _ _ => rfl
  · split at h
    · cases h
      exact inward_of_writes rfl (k.wrapper.localStep_writeAt pos) fun _ _ _ => rfl
    · cases h
  · cases h

end WrapperPath

namespace Member
variable {m : Member} {R V : Ty} {f : Flavor}
open Accessor

theorem inward_accessor {e : Erased R V} (h : m.accessor? R f = some (.fixed e)) : e.path.Inward := by
  unfold accessor? at h
  split at h
  · cases f <;> cases h
    · exact inward_of_reads rfl (.step _) fun _ _ _ => rfl
    · exact inward_of_writes rfl (.step _) fun _ _ _ => rfl
    · exact inward_of_reads rfl ((LocalStep.step _).bind m.type.localStep_read) fun _ _ _ => rfl
    · exact inward_of_writes rfl ((LocalStep.step _).bind m.type.localStep_write) fun _ _ _ => rfl
    · exact inward_of_owns rfl rfl
    · exact inward_of_owns rfl rfl
  · cases h

theorem inward_accessorAt {t : PositionType} {path : Position → Erased R V}
    (h : m.accessorAt? R f = some (.positional t path)) (pos : Position) : (path pos).path.Inward := by
  unfold accessorAt? at h
  split at h
  · split at h <;> cases h
    · exact inward_of_reads rfl ((LocalStep.step _).bind (m.type.localStep_readAt pos)) fun _ _ _ => rfl
    · exact inward_of_writes rfl ((LocalStep.step _).bind (m.type.localStep_writeAt pos)) fun _ _ _ => rfl
  · cases h

end Member

namespace UnionCase
variable {c : UnionCase} {U V : Ty} {f : Flavor}
open Accessor

theorem inward_caseAccessor {e : Erased U V} (h : c.caseAccessor? U f = some (.fixed e)) : e.path.Inward := by
  unfold caseAccessor? at h
  split at h
  · cases f <;> cases h
    · exact inward_of_reads rfl c.localStep_extract fun _ _ _ => rfl
    · exact ⟨fun _ => .of_step c.localStep_extract fun _ _ => rfl, fun _ => .of_step c.localStep_extract fun _ _ => rfl⟩
  · cases h

theorem inward_unwrapAccessor {e : Erased U V} (h : c.unwrapAccessor? U f = some (.fixed e)) : e.path.Inward := by
  unfold unwrapAccessor? at h
  split at h
  · cases f <;> cases h
    · exact inward_of_reads rfl (c.localStep_extract.bind c.type.localStep_read) fun _ _ _ => rfl
    · exact inward_of_writes rfl (c.localStep_extract.bind c.type.localStep_write) fun _ _ _ => rfl
    · exact inward_of_owns rfl rfl
  · cases h

theorem inward_accessorAt {t : PositionType} {path : Position → Erased U V}
    (h : c.accessorAt? U f = some (.positional t path)) (pos : Position) : (path pos).path.Inward := by
  unfold accessorAt? at h
  split at h
  · split at h <;> cases h
    · exact inward_of_reads rfl (c.localStep_extract.bind (c.type.localStep_readAt pos)) fun _ _ _ => rfl
    · exact inward_of_writes rfl (c.localStep_extract.bind (c.type.localStep_writeAt pos)) fun _ _ _ => rfl
  · cases h

theorem inward_field {n : String} {e : Erased U V} (h : c.field? U f n = some (.fixed e)) : e.path.Inward := by
  have field : ∀ counted i, LocalStep counted fun s p => (c.extract s p).map (·.item i) := fun counted i => by
    simp only [Option.map_eq_bind]
    exact c.localStep_extract.bind (.step (.item i))
  unfold field? at h
  split at h
  · split at h <;> cases h
    · exact inward_of_reads rfl (field _ _) fun _ _ _ => rfl
    · exact inward_of_writes rfl (field _ _) fun _ _ _ => rfl
  · cases h

end UnionCase

/-- An accessor that is declared by a wrapper, a member of a record or a case of a union, at any position if it takes
    one. -/
inductive Erased.Declared : {R V : Ty} → Erased R V → Prop where
  | step {k : WrapperPath} {f : Flavor} {e : Erased k.root k.payload} (h : k.step? f = some e) : Declared e
  | stepAt {k : WrapperPath} {f : Flavor} {V : Ty} {t : PositionType} {path : Position → Erased k.root V}
      (h : k.stepAt? f = some (.positional t path)) (pos : Position) : Declared (path pos)
  | member {m : Member} {f : Flavor} {R V : Ty} {e : Erased R V} (h : m.accessor? R f = some (.fixed e)) : Declared e
  | memberAt {m : Member} {f : Flavor} {R V : Ty} {t : PositionType} {path : Position → Erased R V}
      (h : m.accessorAt? R f = some (.positional t path)) (pos : Position) : Declared (path pos)
  | unionCase {c : UnionCase} {f : Flavor} {U V : Ty} {e : Erased U V} (h : c.caseAccessor? U f = some (.fixed e)) :
      Declared e
  | unwrap {c : UnionCase} {f : Flavor} {U V : Ty} {e : Erased U V} (h : c.unwrapAccessor? U f = some (.fixed e)) :
      Declared e
  | caseAt {c : UnionCase} {f : Flavor} {U V : Ty} {t : PositionType} {path : Position → Erased U V}
      (h : c.accessorAt? U f = some (.positional t path)) (pos : Position) : Declared (path pos)
  | field {c : UnionCase} {f : Flavor} {n : String} {U V : Ty} {e : Erased U V} (h : c.field? U f n = some (.fixed e)) :
      Declared e

theorem Erased.Declared.inward {R V : Ty} {e : Erased R V} (h : e.Declared) : e.path.Inward := by
  cases h with
  | step h => exact WrapperPath.inward_step h
  | stepAt h pos => exact WrapperPath.inward_stepAt h pos
  | member h => exact Member.inward_accessor h
  | memberAt h pos => exact Member.inward_accessorAt h pos
  | unionCase h => exact UnionCase.inward_caseAccessor h
  | unwrap h => exact UnionCase.inward_unwrapAccessor h
  | caseAt h pos => exact UnionCase.inward_accessorAt h pos
  | field h => exact UnionCase.inward_field h

end Accessors
