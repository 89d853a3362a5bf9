import Accessors.Proofs.Accessor.Lens

/-! # Chains of partial lenses

The readers of some legs are joined, and so are their writers, without regard to each other. If every leg is a steady
lens at the place that the writers before it lead to, and reads by value, the two that result are one at the root. What
is written through them stays inside the target of the first leg, and of each leg before the last.

By the laws of partial lenses alone they need not be one. A target that is not inside the value that is given may be
what the first leg goes by, and so may a cell that is reached from two sides. -/

namespace Accessors

/-- Legs one after the other, each with a reader and a writer. -/
inductive LensChain (R : Ty) : Ty → Type where
  | leg {V : Ty} (l : LensLeg R V) : LensChain R V
  | next {M V : Ty} (c : LensChain R M) (l : LensLeg M V) : LensChain R V

namespace LensChain
variable {R M V : Ty} {c : LensChain R V} {l : LensLeg R V} {s : Store} {p q : Place}

def readers : {V : Ty} → LensChain R V → Chain R V
  | _, leg l => .leg l.reader
  | _, next c l => .next c.readers l.reader

def writers : {V : Ty} → LensChain R V → Chain R V
  | _, leg l => .leg l.writer
  | _, next c l => .next c.writers l.writer

/-- Where the writers lead, one after the other. -/
def target? (s : Store) (p : Place) : {V : Ty} → LensChain R V → Option Place
  | _, leg l => l.writer.target? s p
  | _, next c l => (c.target? s p).bind (l.writer.target? s)

/-- Every leg has a property at the place that the writers before it lead to. -/
def Along (P : {M V : Ty} → LensLeg M V → Store → Place → Prop) (s : Store) (p : Place) :
    {V : Ty} → LensChain R V → Prop
  | _, leg l => P l s p
  | _, next c l => c.Along P s p ∧ ∀ q, c.target? s p = some q → P l s q

/-- Every leg is a steady lens at the place that the writers before it lead to. -/
def Steady (c : LensChain R V) (s : Store) (p : Place) : Prop := c.Along LensLeg.Steady s p

/-- Every leg has its target inside the value that the writers before it lead to. -/
def Inside (c : LensChain R V) (s : Store) (p : Place) : Prop := c.Along LensLeg.Inside s p

/-- Every leg reads by value. -/
def ByValue : {V : Ty} → LensChain R V → Prop
  | _, leg l => l.reader.ByValue
  | _, next c l => c.ByValue ∧ l.reader.ByValue

/-- The readers of a chain are joined, and so are its writers. -/
structure Joins (c : LensChain R V) (l : LensLeg R V) : Prop where
  reader : c.readers.join = .ok l.reader
  writer : c.writers.join = .ok l.writer

/-- The joins are defined, whatever flavors the legs have. -/
theorem exists_joins (c : LensChain R V) : ∃ l, c.Joins l := by
  induction c with
  | leg l => exact ⟨l, rfl, rfl⟩
  | next c b ih =>
    obtain ⟨a, ha⟩ := ih
    obtain ⟨l, hl⟩ := a.exists_joins b
    refine ⟨l, ?_, ?_⟩
    · exact Chain.join_next_eq_ok.mpr ⟨_, ha.reader, hl.reader⟩
    · exact Chain.join_next_eq_ok.mpr ⟨_, ha.writer, hl.writer⟩

theorem joins_next {c : LensChain R M} {b : LensLeg M V} (h : (c.next b).Joins l) :
    ∃ a, c.Joins a ∧ a.Joins b l := by
  obtain ⟨a, ha⟩ := c.exists_joins
  obtain ⟨r, hr, reader⟩ := Chain.join_next_eq_ok.mp h.reader
  obtain ⟨w, hw, writer⟩ := Chain.join_next_eq_ok.mp h.writer
  cases ha.reader.symm.trans hr
  cases ha.writer.symm.trans hw
  exact ⟨a, ha, reader, writer⟩

/-- The joined writer leads where the writers lead one after the other. -/
theorem Joins.target? (h : c.Joins l) : l.writer.target? s p = c.target? s p := by
  induction c with
  | leg b =>
    rw [← Except.ok.inj h.writer]
    rfl
  | next c b ih =>
    obtain ⟨a, ha, hl⟩ := joins_next h
    rw [hl.target?, ih ha]
    rfl

theorem Joins.byValue_legs (h : c.Joins l) (byValue : c.ByValue) : l.reader.ByValue := by
  induction c with
  | leg b =>
    rw [← Except.ok.inj h.reader]
    exact byValue
  | next c b ih =>
    obtain ⟨a, ha, hl⟩ := joins_next h
    exact hl.byValue (ih ha byValue.1) byValue.2

/-- Steady lenses in a row are one when they are joined. -/
theorem Joins.steady_legs (h : c.Joins l) (byValue : c.ByValue) (legs : c.Steady s p) : l.Steady s p := by
  induction c with
  | leg b =>
    rw [LensLeg.Steady, ← Except.ok.inj h.reader, ← Except.ok.inj h.writer]
    exact legs
  | next c b ih =>
    obtain ⟨a, ha, hl⟩ := joins_next h
    obtain ⟨before, last⟩ := legs
    refine hl.steady_next byValue.2 (ih ha byValue.1 before) fun q hq => last q ?_
    rwa [ha.target?] at hq

/-- What the legs of a chain lend in turn is where the writers lead. -/
theorem target?_of_lends (c : LensChain R V) {o : Option Place} (h : c.writers.Lends Erased.getMut s p (.ok o)) :
    c.target? s p = o := by
  have ends {M V : Ty} {l : LensLeg M V} {m : Place} {o : Option Place} (h : Ends (l.writer.getMut s m) (.ok o)) :
      l.writer.target? s m = o := by
    obtain ⟨z, hz, outcome⟩ := h
    simp only [Erased.target?, hz, Session.result?, outcome]
    rfl
  induction c generalizing o with
  | leg l => exact ends h
  | next c l ih =>
    rcases h with ⟨m, before, last⟩ | ⟨before, nothing⟩
    · rw [target?, ih before, Option.bind_some, ends last]
    · cases o with
      | none => rw [target?, ih before, Option.bind_none]
      | some m => exact absurd rfl (nothing m)

/-- The target is inside the target of every leg. -/
theorem within_of_begins {d : Chain R M} (begins : d.Begins c.writers) {m : Place}
    (lends : d.Lends Erased.getMut s p (.ok (some m))) (legs : c.Inside s p) (hq : c.target? s p = some q) :
    s.Within m q := by
  induction c generalizing q with
  | leg l =>
    cases begins
    cases hq.symm.trans (target?_of_lends (.leg l) lends)
    exact .refl s _
  | next c l ih =>
    cases begins with
    | all =>
      cases hq.symm.trans (target?_of_lends (.next c l) lends)
      exact .refl s _
    | next begins =>
      obtain ⟨n, hn, hq⟩ := Option.bind_eq_some_iff.mp hq
      exact (ih begins legs.1 hn).trans (legs.2 n hn q hq)

/-- What the leg does that a chain is joined to. -/
structure Composed (c : LensChain R V) (l : LensLeg R V) : Prop extends c.Joins l where
  /-- If all legs are steady lenses and read by value, it is one and does so. -/
  lens : c.ByValue → ∀ s p, c.Steady s p → l.Steady s p
  byValue : c.ByValue → l.reader.ByValue
  /-- If any leg finds nothing, nothing is changed. -/
  absent : ∀ s p {M : Ty} (d : Chain R M), d.Begins c.writers → d.Lends Erased.getMut s p (.ok none) →
    l.writer.target? s p = none ∧ ∀ x, l.writer.put x s p = s
  /-- Nothing is changed but what is inside the target of the first leg, or of the first few. -/
  confined : ∀ s p, c.Inside s p → ∀ {M : Ty} (d : Chain R M), d.Begins c.writers →
    ∀ m, d.Lends Erased.getMut s p (.ok (some m)) → ∀ x, s.ChangedWithin (l.writer.put x s p) m

/-- The readers of some legs can be joined, and so can their writers. If all legs are steady lenses and read by value,
    the two that result are one, and change nothing outside the target of the first leg. -/
theorem join_lawful (c : LensChain R V) : ∃ l, c.Composed l := by
  obtain ⟨l, h⟩ := c.exists_joins
  refine ⟨l, h, fun byValue s p => h.steady_legs byValue, h.byValue_legs, ?_, ?_⟩
  · intro s p M d begins nothing
    have none : l.writer.target? s p = none := h.target?.trans (target?_of_lends c (begins.lends_none nothing))
    exact ⟨none, l.writer.put_of_no_target none⟩
  · intro s p legs M d begins m lends x
    cases hq : l.writer.target? s p with
    | none =>
      rw [l.writer.put_of_no_target hq]
      exact .refl s m
    | some q =>
      rw [l.writer.put_of_target hq]
      exact Store.changedWithin_set (within_of_begins begins lends legs (h.target?.symm.trans hq)) x

/-- The number that a case of a union holds, behind a handle with one owner in a member. -/
theorem join_lawful_pick : ∃ (c : LensChain (.plain "w::Shop") (.plain "int"))
    (l : LensLeg (.plain "w::Shop") (.plain "int")) (s : Store), c.ByValue ∧ c.Steady s Session.root ∧ c.Composed l ∧
      l.Steady s Session.root ∧ l.writer.target? s Session.root = some (Place.cell 0).inside := by
  let s : Store := ⟨[.items [.int 3, .shared 0]], [.alternative 1 (.int 7)], []⟩
  let member : Member := ⟨"pick", 1, .wrap .localShared (.plain "w::Pick"), .all⟩
  let count : UnionCase := ⟨"count", 1, .single (.plain "int"), .all⟩
  let c : LensChain (.plain "w::Shop") (.plain "int") :=
    .next (.next (.leg (member.lens _)) (WrapperPath.lens ⟨.localShared, .plain "w::Pick"⟩)) (count.lens _)
  have closed : s.Closed := by
    rintro (i | d) v e hv owns
    · obtain ⟨hi, rfl⟩ := List.getElem?_eq_some_iff.mp hv
      simp [s, Value.owners, Value.ownersIn] at owns
      split at owns
      · rename_i he
        subst he
        exact Nat.one_pos
      · exact absurd owns (Nat.lt_irrefl 0)
    · obtain ⟨hd, rfl⟩ := List.getElem?_eq_some_iff.mp hv
      simp [s, Value.owners] at owns
  have byValue : c.ByValue := ⟨⟨member.byValue_lens _, WrapperPath.byValue_lens _⟩, count.byValue_lens _⟩
  have legs : c.Steady s Session.root := by
    refine ⟨⟨Member.steady_lens rfl, ?_⟩, ?_⟩
    · rintro _ ⟨⟩
      have forward : s.Forward (member.place Session.root) := by
        intro d hd
        cases hd
      refine WrapperPath.steady_lens rfl closed forward fun d hd => ?_
      cases List.mem_singleton.mp hd
      rw [← Store.owners_eq_liveOwners]
      decide
    · rintro _ ⟨⟩
      exact UnionCase.steady_lens fun d _ => Store.not_reaches_of_no_handles fun _ => rfl
  obtain ⟨l, composed⟩ := c.join_lawful
  exact ⟨c, l, s, byValue, legs, composed, composed.lens byValue s _ legs, composed.target?⟩

end LensChain

/-! ### By the laws alone -/

/-- Something holds at every place in a variable, whatever is in the store. -/
def InVariables (P : Store → Place → Prop) : Prop := ∀ s i ss, P s ⟨.slot i, ss⟩

namespace Store
variable {s : Store} {p q : Place} {i : Nat} {ss : List Value.Step} {u v x : Value} {vs : List Value}

theorem get?_of_value (h : s.value p = v) (there : v ≠ .moved) : s.get? p = some v := by
  rw [value] at h
  cases hp : s.get? p with
  | none =>
    rw [hp] at h
    exact absurd h.symm there
  | some w =>
    rw [hp] at h
    exact congrArg some h

/-- What is put into a cell is not put into a variable. -/
theorem value_set_of_cell {d : Nat} (hq : q.base = .cell d) (x : Value) :
    (s.set q x).value ⟨.slot i, ss⟩ = s.value ⟨.slot i, ss⟩ := by
  have apart : (⟨.slot i, ss⟩ : Place).base ≠ q.base := by
    rw [hq]
    exact Base.noConfusion
  rw [value, value, get?_set_of_base apart]

theorem value_set_of_slot {c : Nat} (x : Value) : (s.set ⟨.slot i, ss⟩ x).value (.cell c) = s.value (.cell c) := by
  have apart : (Place.cell c).base ≠ (⟨.slot i, ss⟩ : Place).base := Base.noConfusion
  rw [value, value, get?_set_of_base apart]

theorem value_set_item (h : s.value p = .items vs) (hi : vs[i]? = some v) (x : Value) :
    (s.set (p.item i) x).value p = .items (vs.set i x) :=
  value_eq (get?_set_item (get?_of_value h Value.noConfusion) hi x)

end Store

namespace LensLeg
variable {R V : Ty} {x y : Store → Place → Option Place} {s : Store} {p q : Place}

/-- The leg of a reader that lends one place and a writer that lends another one. -/
def lending (R V : Ty) (x y : Store → Place → Option Place) : LensLeg R V where
  reader := .of (.failableReadable fun s p => .done (x s p))
  writer := .of (.failableWritable fun s p => .done (y s p))
  reads := rfl
  writes := rfl

theorem source?_lending : (lending R V x y).reader.source? s p = x s p := Erased.source?_of_lent fun _ _ => rfl

theorem target?_lending : (lending R V x y).writer.target? s p = y s p := Erased.target?_of_lent fun _ _ => rfl

theorem value?_lending : (lending R V x y).reader.value? s p = (x s p).map s.value := by
  rw [Erased.value?, source?_lending]

def isSet : Value → Bool
  | .flag b => b
  | _ => false

/-- A handle owns a flag that is set. -/
def ownsSet (s : Store) : Value → Bool
  | .shared c => isSet (s.value (.cell c))
  | _ => false

theorem ownsSet_set (s : Store) (i : Nat) (ss : List Value.Step) (x u : Value) :
    ownsSet (s.set ⟨.slot i, ss⟩ x) u = ownsSet s u := by
  cases u with
  | shared c => simp only [ownsSet, Store.value_set_of_slot]
  | _ => rfl

/-- The second of some items, as long as the first one passes a test. -/
def second (test : Store → Value → Bool) (s : Store) (p : Place) : Option Place :=
  match s.value p with
  | .items (u :: _ :: _) => if test s u then some (p.item 1) else none
  | _ => none

section
variable {test : Store → Value → Bool}

theorem second_eq_some : second test s p = some q ↔
    ∃ u v vs, s.value p = .items (u :: v :: vs) ∧ test s u = true ∧ p.item 1 = q := by
  unfold second
  constructor
  · intro h
    split at h
    · rename_i hp
      split at h
      · rename_i passes
        exact ⟨_, _, _, hp, passes, Option.some.inj h⟩
      · cases h
    · cases h
  · rintro ⟨u, v, vs, hp, passes, rfl⟩
    simp only [hp, passes, if_true]

theorem lawful_second (kept : ∀ s i ss x u, test (s.set ⟨.slot i, ss⟩ x) u = test s u) :
    InVariables (lending R V (second test) (second test)).Lawful := by
  intro s i ss
  refine Erased.partialLens_of_lent (fun _ _ => rfl) (fun _ _ => rfl) rfl ?_ ?_
  · intro q hq
    obtain ⟨u, v, vs, hp, -, rfl⟩ := second_eq_some.mp hq
    exact ⟨v, by rw [Place.item, Store.get?_step, Store.get?_of_value hp Value.noConfusion]; rfl⟩
  · intro q x hq
    obtain ⟨u, v, vs, hp, passes, rfl⟩ := second_eq_some.mp hq
    have passes := (kept s i (ss ++ [Value.Step.item 1]) x u).trans passes
    exact second_eq_some.mpr ⟨u, x, vs, Store.value_set_item hp rfl x, passes, rfl⟩

theorem byValue_second : (lending R V (second test) (second test)).reader.ByValue := by
  have value : ∀ s p, (lending R V (second test) (second test)).reader.value? s p =
      match s.value p with
      | .items (u :: v :: _) => if test s u then some v else none
      | _ => none := by
    intro s p
    rw [value?_lending, second]
    split
    · rename_i hp
      split
      · rw [Option.map_some, Store.value_item, hp]
        rfl
      · rfl
    · rfl
  intro s p q same
  rw [value, value, same]

theorem inside_second : InVariables (lending R V (second test) (second test)).Inside := by
  intro s i ss q hq
  obtain ⟨u, v, vs, -, -, rfl⟩ := second_eq_some.mp (target?_lending.symm.trans hq)
  exact .inl (Place.covers_step _ _)

theorem through_second (kept : ∀ s t u, test s u = test t u) :
    InVariables (lending R V (second test) (second test)).Through := by
  intro s i ss q hq m d base _ x
  obtain ⟨u, v, vs, hp, passes, rfl⟩ := second_eq_some.mp (target?_lending.symm.trans hq)
  have still : second test (s.set m x) ⟨.slot i, ss⟩ = some _ :=
    second_eq_some.mpr ⟨u, v, vs, (Store.value_set_of_cell base x).trans hp, (kept _ s u).trans passes, rfl⟩
  rw [value?_lending, still, Option.map_some]

end

/-- What a handle owns, however many others own it. -/
def pointee (s : Store) (p : Place) : Option Place :=
  match s.value p with
  | .shared c => (s.get? (.cell c)).map fun _ => .cell c
  | _ => none

theorem pointee_eq_some : pointee s p = some q ↔
    ∃ c u, s.value p = .shared c ∧ s.get? (.cell c) = some u ∧ Place.cell c = q := by
  unfold pointee
  constructor
  · intro h
    split at h
    · rename_i hp
      obtain ⟨u, hu, hc⟩ := Option.map_eq_some_iff.mp h
      exact ⟨_, u, hp, hu, hc⟩
    · cases h
  · rintro ⟨c, u, hp, hu, rfl⟩
    simp only [hp, hu, Option.map_some]

theorem lawful_pointee : InVariables (lending R V pointee pointee).Lawful := by
  intro s i ss
  refine Erased.partialLens_of_lent (fun _ _ => rfl) (fun _ _ => rfl) rfl ?_ ?_
  · intro q hq
    obtain ⟨c, u, -, hu, rfl⟩ := pointee_eq_some.mp hq
    exact ⟨u, hu⟩
  · intro q x hq
    obtain ⟨c, u, hp, hu, rfl⟩ := pointee_eq_some.mp hq
    exact pointee_eq_some.mpr ⟨c, x, (Store.value_set_of_cell rfl x).trans hp, Store.get?_set hu, rfl⟩

theorem byValue_pointee : (lending R V pointee pointee).reader.ByValue := by
  intro s p q same
  rw [value?_lending, value?_lending, pointee, pointee, same]

theorem inside_pointee : InVariables (lending R V pointee pointee).Inside := by
  intro s i ss q hq
  obtain ⟨c, u, hp, -, rfl⟩ := pointee_eq_some.mp (target?_lending.symm.trans hq)
  exact .inr ⟨c, rfl, Store.reaches_of_cell? (by rw [hp]; rfl)⟩

/-- The first of two items. -/
def first (s : Store) (p : Place) : Option Place :=
  match s.value p with
  | .items (_ :: _ :: _) => some (p.item 0)
  | _ => none

theorem first_eq_some : first s p = some q ↔ ∃ u v vs, s.value p = .items (u :: v :: vs) ∧ p.item 0 = q := by
  unfold first
  constructor
  · intro h
    split at h
    · rename_i hp
      exact ⟨_, _, _, hp, Option.some.inj h⟩
    · cases h
  · rintro ⟨u, v, vs, hp, rfl⟩
    simp only [hp]

theorem first_there (h : first s p = some q) : ∃ u, s.get? q = some u := by
  obtain ⟨u, v, vs, hp, rfl⟩ := first_eq_some.mp h
  exact ⟨u, by rw [Place.item, Store.get?_step, Store.get?_of_value hp Value.noConfusion]; rfl⟩

theorem first_set (h : first s p = some q) (x : Value) : first (s.set q x) p = some q := by
  obtain ⟨u, v, vs, hp, rfl⟩ := first_eq_some.mp h
  exact first_eq_some.mpr ⟨x, v, vs, Store.value_set_item hp rfl x, rfl⟩

theorem first_set_of_cell {m : Place} {i d : Nat} {ss : List Value.Step} (h : first s ⟨.slot i, ss⟩ = some q)
    (base : m.base = .cell d) (x : Value) : first (s.set m x) ⟨.slot i, ss⟩ = some q := by
  obtain ⟨u, v, vs, hp, rfl⟩ := first_eq_some.mp h
  exact first_eq_some.mpr ⟨u, v, vs, (Store.value_set_of_cell base x).trans hp, rfl⟩

theorem lawful_first : InVariables (lending R V first first).Lawful := by
  intro s i ss
  exact Erased.partialLens_of_lent (fun _ _ => rfl) (fun _ _ => rfl) rfl (fun _ => first_there) fun _ x h => first_set h x

/-- The first of two items in the first variable, wherever the root is. -/
def global (s : Store) (_ : Place) : Option Place := first s (.slot 0)

theorem lawful_global : InVariables (lending R V global global).Lawful := by
  intro s i ss
  exact Erased.partialLens_of_lent (fun _ _ => rfl) (fun _ _ => rfl) rfl (fun _ => first_there) fun _ x h => first_set h x

theorem byValue_global : (lending R V global global).reader.ByValue := by
  intro s p q same
  rw [value?_lending, value?_lending]
  rfl

theorem through_global : InVariables (lending R V global global).Through := by
  intro s i ss q hq m d base _ x
  rw [target?_lending] at hq
  have still : global (s.set m x) ⟨.slot i, ss⟩ = some q := first_set_of_cell hq base x
  rw [value?_lending, still, Option.map_some]

/-- The first of two items or, if both are empty, the second one. -/
def either (s : Store) (p : Place) : Option Place :=
  match s.value p with
  | .items (.empty :: .empty :: _) => some (p.item 1)
  | .items (_ :: _ :: _) => some (p.item 0)
  | _ => none

/-- Either way the value is that of the first item. -/
theorem map_value_either : (either s p).map s.value = (first s p).map s.value := by
  unfold either first
  split
  · rename_i hp
    simp only [hp, Option.map_some, Store.value_item, Value.list, List.getElem?_cons_succ, List.getElem?_cons_zero]
  · rename_i hp
    simp only [hp]
  · rename_i none
    split
    · rename_i hp
      exact absurd hp (none _ _ _)
    · rfl

theorem lawful_either : InVariables (lending R V either first).Lawful := by
  intro s i ss
  have reads (t : Store) : (lending R V either first).reader.value? t ⟨.slot i, ss⟩ =
      (lending R V first first).reader.value? t ⟨.slot i, ss⟩ := by
    rw [value?_lending, value?_lending, map_value_either]
  have lens : (lending R V first first).Lawful s ⟨.slot i, ss⟩ := lawful_first s i ss
  refine ⟨?_, fun found x => ?_, fun v hv => ?_⟩
  · rw [reads]
    exact lens.found
  · rw [reads]
    exact lens.put_get found x
  · rw [reads] at hv
    exact lens.get_put v hv

theorem inside_either : InVariables (lending R V either first).Inside := by
  intro s i ss q hq
  obtain ⟨u, v, vs, -, rfl⟩ := first_eq_some.mp (target?_lending.symm.trans hq)
  exact .inl (Place.covers_step _ _)

theorem through_either : InVariables (lending R V either first).Through := by
  intro s i ss q hq m d base _ x
  rw [target?_lending] at hq
  have still : first (s.set m x) ⟨.slot i, ss⟩ = some q := first_set_of_cell hq base x
  rw [value?_lending, map_value_either, still, Option.map_some]

/-- A value that is the first item of a variable. -/
def here (s : Store) (p : Place) : Option Place :=
  if p.path = [.item 0] then (s.get? p).map fun _ => p else none

theorem here_eq_some : here s p = some q ↔ p.path = [.item 0] ∧ (∃ u, s.get? p = some u) ∧ p = q := by
  unfold here
  constructor
  · intro h
    split at h
    · rename_i path
      obtain ⟨u, hu, rfl⟩ := Option.map_eq_some_iff.mp h
      exact ⟨path, ⟨u, hu⟩, rfl⟩
    · cases h
  · rintro ⟨path, ⟨u, hu⟩, rfl⟩
    rw [if_pos path, hu, Option.map_some]

theorem lawful_here : InVariables (lending R V here here).Lawful := by
  intro s i ss
  refine Erased.partialLens_of_lent (fun _ _ => rfl) (fun _ _ => rfl) rfl ?_ ?_
  · intro q hq
    obtain ⟨-, there, rfl⟩ := here_eq_some.mp hq
    exact there
  · intro q x hq
    obtain ⟨path, ⟨u, hu⟩, rfl⟩ := here_eq_some.mp hq
    exact here_eq_some.mpr ⟨path, ⟨x, Store.get?_set hu⟩, rfl⟩

theorem inside_here : InVariables (lending R V here here).Inside := by
  intro s i ss q hq
  obtain ⟨-, -, rfl⟩ := here_eq_some.mp (target?_lending.symm.trans hq)
  exact .refl s _

theorem through_here : InVariables (lending R V here here).Through := by
  intro s i ss q hq m d base _ x
  obtain ⟨path, ⟨u, hu⟩, rfl⟩ := here_eq_some.mp (target?_lending.symm.trans hq)
  have apart : (⟨.slot i, ss⟩ : Place).base ≠ m.base := by
    rw [base]
    exact Base.noConfusion
  have still : here (s.set m x) ⟨.slot i, ss⟩ = some _ :=
    here_eq_some.mpr ⟨path, ⟨u, (Store.get?_set_of_base apart).trans hu⟩, rfl⟩
  rw [value?_lending, still, Option.map_some]

/-- Two legs that are partial lenses wherever their roots are in variables, and have some further property, need not be
    one when they are joined. -/
def Spoiled (P : {R V : Ty} → LensLeg R V → Prop) : Prop :=
  ∃ (R M V : Ty) (a : LensLeg R M) (b : LensLeg M V) (l : LensLeg R V) (s : Store), a.Joins b l ∧
    (InVariables a.Lawful ∧ P a) ∧ (InVariables b.Lawful ∧ P b) ∧ ¬l.Lawful s Session.root

/-- The laws of partial lenses alone do not carry over to two legs that are joined, nor do they with two of the three
    conditions that the second one reads by value, that targets are inside, and that they are read through changes. -/
theorem join_spoiled :
    Spoiled (fun l => l.reader.ByValue ∧ InVariables l.Inside) ∧
    Spoiled (fun l => l.reader.ByValue ∧ InVariables l.Through) ∧
    Spoiled (fun l => InVariables l.Inside ∧ InVariables l.Through) := by
  have unread {R M V : Ty} {a : LensLeg R M} {b : LensLeg M V} {l : LensLeg R V} (h : a.Joins b l) (s : Store)
      (p : Place) : l.reader.source? s p = (a.reader.source? s p).bind (b.reader.source? s) :=
    Erased.source?_next h.reader l.reads
  refine ⟨?_, ?_, ?_⟩
  · -- The cell that is written is the one that the first leg goes by.
    let a := lending (.plain "w::Switch") (.wrap .shared (.plain "bool")) (second ownsSet) (second ownsSet)
    let b := lending (.wrap .shared (.plain "bool")) (.plain "bool") pointee pointee
    let s : Store := ⟨[.items [.shared 0, .shared 0]], [.flag true], []⟩
    obtain ⟨l, joins⟩ := a.exists_joins b
    refine ⟨_, _, _, a, b, l, s, joins, ⟨lawful_second ownsSet_set, byValue_second, inside_second⟩,
      ⟨lawful_pointee, byValue_pointee, inside_pointee⟩, ?_⟩
    intro lawful
    have target : l.writer.target? s Session.root = some (.cell 0) := joins.target?
    have read := lawful.put_get (by rw [target]; rfl) (.flag false)
    rw [Erased.put_of_target _ target, Erased.value?, unread joins] at read
    cases read
  · -- The flag that is written is outside of what the first leg leads to.
    let a := lending (.plain "w::Switch") (.plain "int") (second fun _ => isSet) (second fun _ => isSet)
    let b := lending (.plain "int") (.plain "bool") global global
    let s : Store := ⟨[.items [.flag true, .int 5]], [], []⟩
    obtain ⟨l, joins⟩ := a.exists_joins b
    refine ⟨_, _, _, a, b, l, s, joins,
      ⟨lawful_second fun _ _ _ _ _ => rfl, byValue_second, through_second fun _ _ _ => rfl⟩,
      ⟨lawful_global, byValue_global, through_global⟩, ?_⟩
    intro lawful
    have target : l.writer.target? s Session.root = some (Session.root.item 0) := joins.target?
    have read := lawful.put_get (by rw [target]; rfl) (.flag false)
    rw [Erased.put_of_target _ target, Erased.value?, unread joins] at read
    cases read
  · -- The value that is read is the same as the one that is written, but in another place.
    let a := lending (.plain "w::Pair") (.plain "int") either first
    let b := lending (.plain "int") (.plain "int") here here
    let s : Store := ⟨[.items [.empty, .empty]], [], []⟩
    obtain ⟨l, joins⟩ := a.exists_joins b
    refine ⟨_, _, _, a, b, l, s, joins, ⟨lawful_either, inside_either, through_either⟩,
      ⟨lawful_here, inside_here, through_here⟩, ?_⟩
    intro lawful
    have target : l.writer.target? s Session.root = some (Session.root.item 0) := joins.target?
    have found := lawful.found
    rw [target, Erased.value?, unread joins] at found
    cases found

end LensLeg

end Accessors
