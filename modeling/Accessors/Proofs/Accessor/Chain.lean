import Accessors.Proofs.Accessor.Compose

/-! # Chains of accessors

Accessors one after the other, each from where the one before leads, joined from the left. Their flavors alone
decide whether the joins are defined, and the first one that is not is reported with the flavor of what was
joined until then. What the accessor joined at run time does is what the accessors do that are joined with their
flavors known. -/

namespace Accessors

/-- Accessors one after the other, each from where the one before leads. -/
inductive Chain (R : Ty) : Ty → Type where
  | leg {V : Ty} (e : Erased R V) : Chain R V
  | next {M V : Ty} (c : Chain R M) (e : Erased M V) : Chain R V

namespace Erased
variable {R M V : Ty} {a : Erased R M} {b : Erased M V} {e : Erased R V}

theorem next_eq_ok : a.next b = .ok e ↔
    ∃ (k : Flavor) (h : a.flavor.compose b.flavor = some k), e = ⟨k, a.path.compose b.path h⟩ := by
  unfold next
  constructor
  · intro h
    split at h
    · rename_i k hk
      exact ⟨k, hk, (Except.ok.inj h).symm⟩
    · cases h
  · rintro ⟨k, hk, rfl⟩
    split
    · rename_i k' hk'
      cases hk.symm.trans hk'
      rfl
    · rename_i hn
      cases hk.symm.trans hn

theorem next_eq_error {u : Incomposable} : a.next b = .error u ↔
    a.flavor.compose b.flavor = none ∧ u = ⟨a.flavor, b.flavor⟩ := by
  unfold next
  constructor
  · intro h
    split at h
    · cases h
    · rename_i hn
      exact ⟨hn, (Except.error.inj h).symm⟩
  · rintro ⟨hn, rfl⟩
    split
    · rename_i k hk
      cases hn.symm.trans hk
    · rfl

/-! ### What is refused -/

theorem get_of_reads (h : e.flavor.reads = true) (s : Store) (p : Place) : e.get s p = .ok (e.path.find h s p) :=
  dif_pos h

theorem getMut_of_writes (h : e.flavor.writes = true) (s : Store) (p : Place) :
    e.getMut s p = .ok (e.path.findMut h s p) := dif_pos h

theorem getOwned_of_owns (h : e.flavor.owns = true) (s : Store) (v : Value) :
    e.getOwned s v = .ok (e.path.findOwned h s v) := dif_pos h

theorem refused_iff {α : Type} {f : Flavor} {o : Operation} {supported : Bool} {use : supported = true → α}
    {u : Unsupported} : (if h : supported = true then Except.ok (use h) else .error ⟨o, f⟩) = .error u ↔
      supported = false ∧ u = ⟨o, f⟩ := by
  cases supported <;> simp [eq_comm]

/-- Each operation is refused exactly by the flavors that do not support it, and by name. -/
structure Refusals (e : Erased R V) : Prop where
  get : ∀ s p u, e.get s p = .error u ↔ Operation.get.supports e.flavor = false ∧ u = ⟨.get, e.flavor⟩
  getMut : ∀ s p u, e.getMut s p = .error u ↔ Operation.getMut.supports e.flavor = false ∧ u = ⟨.getMut, e.flavor⟩
  getOwned : ∀ s v u,
    e.getOwned s v = .error u ↔ Operation.getOwned.supports e.flavor = false ∧ u = ⟨.getOwned, e.flavor⟩
  embed : ∀ v u, e.embed v = .error u ↔ Operation.embed.supports e.flavor = false ∧ u = ⟨.embed, e.flavor⟩

theorem refusals (e : Erased R V) : e.Refusals :=
  ⟨fun _ _ _ => refused_iff, fun _ _ _ => refused_iff, fun _ _ _ => refused_iff, fun _ _ => refused_iff⟩

/-- An accessor whose flavor is known only when it is used does what one does whose flavor is known. -/
structure Does {k : Flavor} (e : Erased R V) (a : Accessor k R V) : Prop where
  flavor : e.flavor = k
  get : ∀ h s p, e.get s p = .ok (a.find h s p)
  getMut : ∀ h s p, e.getMut s p = .ok (a.findMut h s p)
  getOwned : ∀ h s v, e.getOwned s v = .ok (a.findOwned h s v)

theorem does_of {k : Flavor} (a : Accessor k R V) : (of a).Does a :=
  ⟨rfl, fun h s p => get_of_reads h s p, fun h s p => getMut_of_writes h s p, fun h s v => getOwned_of_owns h s v⟩

end Erased

namespace Chain
variable {R M V : Ty}

/-- The accessor joined from the legs, from the left. -/
def join : {V : Ty} → Chain R V → Except Incomposable (Erased R V)
  | _, leg e => .ok e
  | _, next c e =>
    match c.join with
    | .ok a => a.next e
    | .error u => .error u

/-- The flavors of the legs. -/
def flavors : {V : Ty} → Chain R V → List Flavor
  | _, leg e => [e.flavor]
  | _, next c e => c.flavors ++ [e.flavor]

/-- The accessor that the legs are joined to when their flavors are known beforehand. -/
inductive Typed : {V : Ty} → Chain R V → (k : Flavor) → Accessor k R V → Prop
  | leg {V : Ty} {f : Flavor} (a : Accessor f R V) : Typed (.leg (.of a)) f a
  | next {M V : Ty} {c : Chain R M} {f g k : Flavor} {a : Accessor f R M} (t : Typed c f a) (b : Accessor g M V)
      (h : f.compose g = some k) : Typed (.next c (.of b)) k (a.compose b h)

variable {c : Chain R V} {e : Erased R V}

theorem flavors_ne_nil (c : Chain R V) : c.flavors ≠ [] := by
  cases c <;> simp [flavors]

theorem join_next_eq_ok {c : Chain R M} {b : Erased M V} :
    (c.next b).join = .ok e ↔ ∃ a, c.join = .ok a ∧ a.next b = .ok e := by
  simp only [join]
  cases c.join <;> simp

theorem composeLeft_flavors (c : Chain R V) :
    Flavor.composeLeft c.flavors = c.join.toOption.map (·.flavor) := by
  induction c with
  | leg e => rfl
  | next c b ih =>
    rw [flavors, Flavor.composeLeft_concat c.flavors_ne_nil, ih, join]
    cases c.join with
    | error u => rfl
    | ok a =>
      cases hn : a.next b with
      | ok e =>
        obtain ⟨k, hk, rfl⟩ := Erased.next_eq_ok.mp hn
        simpa [Except.toOption, hn] using hk
      | error u => simpa [Except.toOption, hn] using (Erased.next_eq_error.mp hn).1

theorem composeLeft_of_join (h : c.join = .ok e) : Flavor.composeLeft c.flavors = some e.flavor := by
  rw [composeLeft_flavors, h]
  rfl

/-- What is reported is the first join that is not defined. -/
theorem first_of_join_eq_error {u : Incomposable} (h : c.join = .error u) :
    ∃ before after, c.flavors = before ++ u.second :: after ∧ Flavor.composeLeft before = some u.first ∧
      u.first.compose u.second = none := by
  induction c with
  | leg e => cases h
  | next c b ih =>
    rw [join] at h
    cases hc : c.join with
    | error u' =>
      rw [hc] at h
      cases h
      obtain ⟨before, after, hf, hb, hn⟩ := ih hc
      refine ⟨before, after ++ [b.flavor], ?_, hb, hn⟩
      rw [flavors, hf, List.append_assoc, List.cons_append]
    | ok a =>
      rw [hc] at h
      obtain ⟨hn, rfl⟩ := Erased.next_eq_error.mp h
      exact ⟨c.flavors, [], rfl, composeLeft_of_join hc, hn⟩

theorem join_eq_ok_iff_typed {k : Flavor} {a : Accessor k R V} : c.join = .ok ⟨k, a⟩ ↔ c.Typed k a := by
  constructor
  · intro h
    induction c generalizing k with
    | leg e =>
      cases h
      exact .leg a
    | next c b ih =>
      obtain ⟨x, hx, hn⟩ := join_next_eq_ok.mp h
      obtain ⟨l, hl, he⟩ := Erased.next_eq_ok.mp hn
      cases he
      exact .next (ih hx) b.path hl
  · intro t
    induction t with
    | leg a => rfl
    | next t b h ih => exact join_next_eq_ok.mpr ⟨_, ih, Erased.next_eq_ok.mpr ⟨_, h, rfl⟩⟩

/-- Joining accessors at run time succeeds exactly if their flavors compose from the left. If they do not, the flavor
    of what was joined until then is named and that of the first accessor that could not be joined. If they do, the
    result has the flavor that they compose to and does what the accessors do that are joined with their flavors
    known. Every accessor refuses exactly the operations that its flavor does not support. -/
theorem join_spec (c : Chain R V) :
    ((∃ e, c.join = .ok e) ↔ ∃ k, Flavor.composeLeft c.flavors = some k) ∧
    (∀ u, c.join = .error u → ∃ before g after, c.flavors = before ++ g :: after ∧
      Flavor.composeLeft before = some u.first ∧ u.first.compose g = none ∧
      u.message = "cannot compose " ++ u.first.name ++ " with " ++ g.name) ∧
    (∀ e, c.join = .ok e → Flavor.composeLeft c.flavors = some e.flavor ∧
      ∃ (k : Flavor) (a : Accessor k R V), c.Typed k a ∧ e.Does a) ∧
    (∀ (k : Flavor) (a : Accessor k R V), c.Typed k a → ∃ e, c.join = .ok e ∧ e.Does a) ∧
    ∀ e : Erased R V, e.Refusals := by
  refine ⟨?_, fun u h => ?_, fun e h => ⟨composeLeft_of_join h, ?_⟩, fun k a t => ?_, Erased.refusals⟩
  · rw [composeLeft_flavors]
    cases c.join <;> simp [Except.toOption]
  · obtain ⟨before, after, hf, hb, hn⟩ := first_of_join_eq_error h
    exact ⟨before, u.second, after, hf, hb, hn, rfl⟩
  · exact ⟨e.flavor, e.path, join_eq_ok_iff_typed.mp h, Erased.does_of e.path⟩
  · exact ⟨⟨k, a⟩, join_eq_ok_iff_typed.mpr t, Erased.does_of a⟩

end Chain
end Accessors
