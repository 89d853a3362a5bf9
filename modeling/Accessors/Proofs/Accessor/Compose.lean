import Accessors.Accessor.Erased
import Accessors.Proofs.Store.Agreement

/-! # Two accessors joined

What an accessor finds that is joined from two: what the second one finds in what the first one found, and
nothing if the first one found nothing. A total leg is not tested on the way, and what an owning leg took is
handed on to whatever kind of leg comes next; for what is found in the end neither makes a difference. -/

namespace Accessors

/-! ### Runs -/

namespace Run
variable {α β γ : Type}

@[simp] theorem map_done (a : α) (f : α → β) : (done a).map f = done (f a) := done_andThen a _

@[simp] theorem map_andThen (x : Run α) (f : α → β) (g : β → Run γ) :
    (x.map f).andThen g = x.andThen fun a => g (f a) := by
  simp only [map, andThen_assoc, done_andThen]

@[simp] theorem andThen_map (x : Run α) (f : α → Run β) (g : β → γ) :
    (x.andThen f).map g = x.andThen fun a => (f a).map g := andThen_assoc x f _

@[simp] theorem map_map (x : Run α) (f : α → β) (g : β → γ) : (x.map f).map g = x.map fun a => g (f a) :=
  map_andThen x f _

theorem map_eq (x : Run α) (f : α → β) : x.map f = ⟨x.calls, x.outcome.map f⟩ := by
  obtain ⟨calls, outcome⟩ := x
  cases outcome <;> simp [map, andThen, done, Except.map]

theorem andThen_congr {x : Run α} {f g : α → Run β} (h : ∀ a, x.outcome = .ok a → f a = g a) :
    x.andThen f = x.andThen g := by
  obtain ⟨calls, outcome⟩ := x
  cases outcome with
  | error e => rfl
  | ok a => simp only [andThen, h a rfl]

theorem outcome_andThen {x : Run α} {f : α → Run β} {o : Except String β} :
    (x.andThen f).outcome = o ↔ (∃ a, x.outcome = .ok a ∧ (f a).outcome = o) ∨
      ∃ e, x.outcome = .error e ∧ o = .error e := by
  obtain ⟨calls, outcome⟩ := x
  cases outcome with
  | error e => simp [andThen, eq_comm]
  | ok a => simp [andThen]

theorem outcome_map_ne {x : Run α} {f : α → β} {b : β} (h : ∀ a, f a ≠ b) : (x.map f).outcome ≠ .ok b := by
  intro hb
  rcases outcome_andThen.mp hb with ⟨a, -, ha⟩ | ⟨e, -, he⟩
  · exact h a (Except.ok.inj ha)
  · cases he

end Run

/-! ### Results -/

namespace Found
variable {α β : Type} {s t : Bool}

@[simp] theorem toOption_cast (h : s = t) (x : Found s α) : (x.cast h).toOption = x.toOption := by
  subst h
  rfl

@[simp] theorem toOption_map (f : α → β) (x : Found s α) : (x.map f).toOption = x.toOption.map f := by
  cases s <;> rfl

/-- For what is found in the end it makes no difference that total steps are not tested. -/
theorem map_toOption_andThen (x : Found s α) (f : α → Run (Found t β)) :
    (x.andThen f).map toOption = x.toOption.elim (Run.done none) fun a => (f a).map toOption := by
  cases s with
  | true => rfl
  | false =>
    cases x with
    | none => rfl
    | some a => exact Run.map_map (f a) _ _

theorem toOption_cast_option (h : false = t) (x : Option α) : (Found.cast (s := false) h x).toOption = x := by
  subst h
  rfl

theorem map_toOption_cast (h : false = t) (x : Run (Option α)) :
    (x.map (Found.cast (s := false) h)).map toOption = x := by
  subst h
  exact (Run.map_map x _ _).trans (Run.andThen_done x)

theorem toOption_of_total (h : s = true) (x : Found s α) : ∃ a, x.toOption = some a := by
  subst h
  exact ⟨x, rfl⟩

end Found

/-! ### Flavors -/

namespace Flavor
variable {f g k x y l r : Flavor} {fs : List Flavor}

theorem isSome_compose : (f.compose g).isSome = true ↔ f.family = .own ∨ f.family = g.family := by
  cases f <;> cases g <;> decide

theorem family_of_compose (h : f.compose g = some k) : k.family = f.family := by
  cases f <;> cases g <;> simp [compose, family, failable, total, failableOf] at h <;> subst h <;> rfl

theorem owns_iff : f.owns = true ↔ f.family = .own := by
  cases f <;> simp [owns, family]

/-- What is joined to read only, and not to write, has legs of the same kind. -/
theorem not_writes_of_compose (h : f.compose g = some k) (hr : k.reads = true) (hw : k.writes = false) :
    f.writes = false ∧ g.writes = false := by
  cases f <;> cases g <;> simp [compose, family, failable, total, failableOf] at h <;> subst h <;>
    simp_all [reads, writes]

/-- A flavor that is no case flavor is known by its family and by whether it is total. -/
theorem eq_of_family (hk : k.isCase = false) (hl : l.isCase = false) (family : k.family = l.family)
    (total : k.total = l.total) : k = l := by
  cases k <;> cases l <;> simp_all [isCase, Flavor.family, Flavor.total]

/-- If three flavors compose in both groupings, the flavor is the same. -/
theorem compose_assoc (hx : f.compose g = some x) (hl : x.compose k = some l) (hy : g.compose k = some y)
    (hr : f.compose y = some r) : l = r := by
  refine eq_of_family (not_isCase_of_compose hl) (not_isCase_of_compose hr) ?_ ?_
  · rw [family_of_compose hl, family_of_compose hx, family_of_compose hr]
  · rw [← total_of_compose hl, ← total_of_compose hx, ← total_of_compose hr, ← total_of_compose hy, Bool.and_assoc]

theorem composeLeft_concat (h : fs ≠ []) : composeLeft (fs ++ [g]) = (composeLeft fs).bind (·.compose g) := by
  cases fs with
  | nil => exact absurd rfl h
  | cons f fs =>
    simp only [List.cons_append, composeLeft, List.foldlM_append, List.foldlM_cons, List.foldlM_nil]
    exact bind_congr fun _ => bind_pure _

end Flavor

/-! ### Joined accessors -/

namespace Accessor
variable {f g k : Flavor} {R M V : Ty} (a : Accessor f R M) (b : Accessor g M V)

/-- A total accessor never finds nothing. -/
theorem find_of_total (total : f.total = true) (h : f.reads = true) (s : Store) (p : Place) :
    (a.find h s p).outcome ≠ .ok none :=
  Run.outcome_map_ne fun x hx => by
    obtain ⟨q, hq⟩ := Found.toOption_of_total total x
    exact Option.some_ne_none q (hq.symm.trans hx)

theorem findMut_of_total (total : f.total = true) (h : f.writes = true) (s : Store) (p : Place) :
    (a.findMut h s p).outcome ≠ .ok none :=
  Run.outcome_map_ne fun x hx => by
    obtain ⟨q, hq⟩ := Found.toOption_of_total total x
    exact Option.some_ne_none q (hq.symm.trans hx)

theorem findOwned_of_total (total : f.total = true) (h : f.owns = true) (s t : Store) (v : Value) :
    (a.findOwned h s v).outcome ≠ .ok (t, none) :=
  Run.outcome_map_ne fun x hx => by
    obtain ⟨q, hq⟩ := Found.toOption_of_total total x.2
    exact Option.some_ne_none q (hq.symm.trans (congrArg Prod.snd hx))

/-- What a leg makes of a value that is in no variable, as an option. -/
def handOn (s : Store) (m : Value) : Run (Store × Option Value) :=
  (b.takeFrom s m).map fun x => (x.1, x.2.toOption)

/-- An owning leg takes its value out of the one that it is handed. -/
theorem handOn_of_owns (h : g.owns = true) (s : Store) (m : Value) : b.handOn s m = b.findOwned h s m := by
  simp only [handOn, takeFrom, h, ↓reduceDIte, findOwned]

/-- A writing leg moves out what it finds in the value that it is handed. -/
theorem handOn_of_writes (h : g.writes = true) (s : Store) (m : Value) :
    b.handOn s m = (b.findMut h (s.push m).1 (s.push m).2).map fun q =>
      ((q.elim (s.push m).1 fun q => ((s.push m).1.takeOut q).1).pop, q.map (s.push m).1.value) := by
  have ho : g.owns = false := by cases g <;> simp_all [Flavor.owns, Flavor.writes]
  simp only [handOn, takeFrom, ho, h, Bool.false_eq_true, ↓reduceDIte, findMut, Run.map_map, Found.toOption_map]

/-- A reading leg copies what it finds in the value that it is handed. -/
theorem handOn_of_reads (h : g.reads = true) (hw : g.writes = false) (s : Store) (m : Value) :
    b.handOn s m = (b.find h (s.push m).1 (s.push m).2).map fun q => (s, q.map (s.push m).1.value) := by
  have ho : g.owns = false := by cases g <;> simp_all [Flavor.owns, Flavor.reads]
  simp only [handOn, takeFrom, ho, hw, Bool.false_eq_true, ↓reduceDIte, find, Run.map_map, Found.toOption_map,
    Store.pop_push]

variable (h : f.compose g = some k)

theorem find_compose (hk : k.reads = true) (s : Store) (p : Place) : (a.compose b h).find hk s p =
    (a.find (Flavor.reads_of_compose h hk).1 s p).andThen fun m =>
      m.elim (.done none) (b.find (Flavor.reads_of_compose h hk).2 s) := by
  simp only [find, compose, Run.andThen_map, Run.map_map, Run.map_andThen, Found.toOption_cast,
    Found.map_toOption_andThen]
  rfl

theorem findMut_compose (hk : k.writes = true) (s : Store) (p : Place) : (a.compose b h).findMut hk s p =
    (a.findMut (Flavor.writes_of_compose h hk).1 s p).andThen fun m =>
      m.elim (.done none) (b.findMut (Flavor.writes_of_compose h hk).2 s) := by
  simp only [findMut, compose, Run.andThen_map, Run.map_map, Run.map_andThen, Found.toOption_cast,
    Found.map_toOption_andThen]
  rfl

/-- What an owning leg took is handed on, whether or not the leg is total. -/
theorem map_takeThrough (hf : f.owns = true) (s : Store) (v : Value) :
    (a.takeThrough b hf s v).map (fun x => (x.1, x.2.toOption)) =
      (a.findOwned hf s v).andThen fun x => x.2.elim (.done (x.1, none)) (b.handOn x.1) := by
  simp only [takeThrough, findOwned, Run.andThen_map, Run.map_andThen]
  refine congrArg _ (funext fun ⟨t, m⟩ => ?_)
  cases f <;> cases hf
  · exact (Run.map_map (b.takeFrom t m) _ _).trans rfl
  · cases m with
    | none => rfl
    | some m => exact Run.map_map (b.takeFrom t m) _ _

theorem findOwned_compose (hk : k.owns = true) (s : Store) (v : Value) : (a.compose b h).findOwned hk s v =
    (a.findOwned (Flavor.owns_of_compose h hk) s v).andThen fun x =>
      x.2.elim (.done (x.1, none)) (b.handOn x.1) := by
  rw [← map_takeThrough]
  simp only [findOwned, compose, Run.map_map, Found.toOption_cast]

/-! ### Three accessors joined -/

/-- A borrowing accessor that looks at nothing but the value that it is given and what that reaches, wherever the
    value is. Only for writing it also looks at how many owners the cells have. -/
structure Local (c : Accessor f M V) : Prop where
  read : ∀ (h : f.reads = true) {s t : Store} {p q : Place}, s.value p = t.value q →
    Store.SameReach false (s.value p) s t → (c.find h s p).map (·.map s.value) = (c.find h t q).map (·.map t.value)
  write : ∀ (h : f.writes = true) {s t : Store} {p q : Place}, s.value p = t.value q →
    Store.SameReach true (s.value p) s t → (c.findMut h s p).map (·.map s.value) = (c.findMut h t q).map (·.map t.value)

/-- What an accessor finds for writing in a value on its own shares nothing with the rest of that value: all that it
    reaches stays the same when it is moved out and the rest is dropped. -/
def Apart (b : Accessor f M V) (s : Store) (m : Value) : Prop :=
  ∀ (h : f.writes = true) (q : Place), (b.findMut h (s.push m).1 (s.push m).2).outcome = .ok (some q) →
    Store.SameReach true ((s.push m).1.value q) (s.push m).1
      (((s.push m).1.takeOut q).1.pop.push ((s.push m).1.value q)).1

section
variable {f g k x y r : Flavor} {R M N V : Ty} {a : Accessor f R M} {b : Accessor g M N} {c : Accessor k N V}

/-! What is handed to two accessors that are joined is handed from one to the other. A borrowing accessor that comes
second is then given a value inside a larger one in place of the same value on its own. -/

section
variable (bcy : g.compose k = some y) (s : Store) (m : Value)
include bcy

theorem handOn_compose_of_owns (ho : g.owns = true) :
    (b.compose c bcy).handOn s m = (b.handOn s m).andThen fun z => z.2.elim (.done (z.1, none)) (c.handOn z.1) := by
  have hy : y.owns = true := Flavor.owns_iff.mpr ((Flavor.family_of_compose bcy).trans (Flavor.owns_iff.mp ho))
  rw [handOn_of_owns _ hy, handOn_of_owns _ ho, findOwned_compose]

theorem handOn_compose_of_writes (hw : y.writes = true) (hc : c.Local) (apart : b.Apart s m) :
    ((b.compose c bcy).handOn s m).map Prod.snd =
      ((b.handOn s m).andThen fun z => z.2.elim (.done (z.1, none)) (c.handOn z.1)).map Prod.snd := by
  obtain ⟨hg, hk⟩ := Flavor.writes_of_compose bcy hw
  rw [handOn_of_writes _ hw, handOn_of_writes _ hg, findMut_compose]
  simp only [Run.map_map, Run.andThen_map, Run.map_andThen]
  refine Run.andThen_congr fun q hq => ?_
  cases q with
  | none => rfl
  | some q =>
    simp only [Option.elim_some, Option.map_some, handOn_of_writes c hk, Run.map_map]
    exact hc.write hk (Store.value_push _ _).symm (apart hg q hq)

theorem handOn_compose_of_reads (hr : y.reads = true) (hw : y.writes = false) (hc : c.Local) :
    ((b.compose c bcy).handOn s m).map Prod.snd =
      ((b.handOn s m).andThen fun z => z.2.elim (.done (z.1, none)) (c.handOn z.1)).map Prod.snd := by
  obtain ⟨hg, hk⟩ := Flavor.reads_of_compose bcy hr
  obtain ⟨hgw, hkw⟩ := Flavor.not_writes_of_compose bcy hr hw
  rw [handOn_of_reads _ hr hw, handOn_of_reads _ hg hgw, find_compose]
  simp only [Run.map_map, Run.andThen_map, Run.map_andThen]
  refine Run.andThen_congr fun q _ => ?_
  cases q with
  | none => rfl
  | some q =>
    simp only [Option.elim_some, Option.map_some, handOn_of_reads c hk hkw, Run.map_map]
    exact hc.read hk (Store.value_push _ _).symm ⟨fun _ _ => rfl, fun h => nomatch h⟩

theorem handOn_compose (hc : g.owns = false → c.Local) (apart : b.Apart s m) :
    ((b.compose c bcy).handOn s m).map Prod.snd =
      ((b.handOn s m).andThen fun z => z.2.elim (.done (z.1, none)) (c.handOn z.1)).map Prod.snd := by
  by_cases ho : g.owns = true
  · rw [handOn_compose_of_owns bcy s m ho]
  · have hc := hc (Bool.not_eq_true _ ▸ ho)
    by_cases hw : y.writes = true
    · exact handOn_compose_of_writes bcy s m hw hc apart
    · have hy : ¬y.owns = true := fun hy => ho (Flavor.owns_of_compose bcy hy)
      exact handOn_compose_of_reads bcy s m (Flavor.reads_of_not_owns_of_not_writes hy hw)
        (Bool.not_eq_true _ ▸ hw) hc

end

variable (abx : f.compose g = some x) (xcl : x.compose k = some r) (bcy : g.compose k = some y)
  (ayr : f.compose y = some r)
include abx xcl bcy ayr

theorem find_assoc (hr : r.reads = true) (s : Store) (p : Place) :
    ((a.compose b abx).compose c xcl).find hr s p = (a.compose (b.compose c bcy) ayr).find hr s p := by
  rw [find_compose, find_compose, find_compose, Run.andThen_assoc]
  refine congrArg _ (funext fun m => ?_)
  cases m with
  | none => rfl
  | some m => exact (find_compose b c bcy _ s m).symm

theorem findMut_assoc (hw : r.writes = true) (s : Store) (p : Place) :
    ((a.compose b abx).compose c xcl).findMut hw s p = (a.compose (b.compose c bcy) ayr).findMut hw s p := by
  rw [findMut_compose, findMut_compose, findMut_compose, Run.andThen_assoc]
  refine congrArg _ (funext fun m => ?_)
  cases m with
  | none => rfl
  | some m => exact (findMut_compose b c bcy _ s m).symm

theorem findOwned_assoc (ho : r.owns = true) (hc : g.owns = false → c.Local) (s : Store) (v : Value)
    (apart : ∀ (hf : f.owns = true) t m, (a.findOwned hf s v).outcome = .ok (t, some m) → b.Apart t m) :
    (((a.compose b abx).compose c xcl).findOwned ho s v).map Prod.snd =
      ((a.compose (b.compose c bcy) ayr).findOwned ho s v).map Prod.snd := by
  rw [findOwned_compose, findOwned_compose, findOwned_compose, Run.andThen_assoc, Run.andThen_map, Run.andThen_map]
  refine Run.andThen_congr fun ⟨t, m⟩ hm => ?_
  cases m with
  | none => rfl
  | some m => exact (handOn_compose bcy t m hc (apart _ t m hm)).symm

end

end Accessor
end Accessors
