import Accessors.Accessor.Adapter
import Accessors.Proofs.Accessor.Chain
import Accessors.Proofs.Session.Uses

/-! # Case accessors as prisms

A case accessor takes values apart and builds them. What it extracts depends on the value alone, what it builds
is taken apart into what it was built from, and what it takes apart it builds again. The accessors of the cases
of a union are of this kind, and they stay so behind optionals and owning pointers, however many: the wrappers
are looked into from the outside in, and put around what is built from the inside out. -/

namespace Accessors

/-! ### Prisms -/

/-- A way of taking values apart together with one of building them, each undoing the other where there is
    something to extract. -/
structure Prism where
  extract : Value → Option Value
  build : Value → Value
  extract_build : ∀ v, extract (build v) = some v
  build_of_extract : ∀ {u v}, extract u = some v → build v = u

/-- A value inside some wrappers. -/
def Value.held : Nat → Value → Value
  | 0, v => v
  | n + 1, v => .holding (held n v)

namespace Prism

/-- The value inside a wrapper. -/
def inside : Prism where
  extract
    | .holding v => some v
    | _ => none
  build := .holding
  extract_build _ := rfl
  build_of_extract {u v} h := by
    cases u <;> simp only [Option.some.injEq, reduceCtorEq] at h
    rw [h]

/-- What the second prism extracts from what the first one extracts. -/
def andThen (p q : Prism) : Prism where
  extract u := (p.extract u).bind q.extract
  build v := p.build (q.build v)
  extract_build v := by rw [p.extract_build, Option.bind_some, q.extract_build]
  build_of_extract h := by
    obtain ⟨m, hm, hv⟩ := Option.bind_eq_some_iff.mp h
    rw [q.build_of_extract hv, p.build_of_extract hm]

/-- A prism behind some wrappers. -/
def behind : Nat → Prism → Prism
  | 0, p => p
  | n + 1, p => behind n (inside.andThen p)

variable (p : Prism) (n : Nat)

/-- The outermost wrapper is looked into first. -/
theorem behind_succ : p.behind (n + 1) = inside.andThen (p.behind n) := by
  induction n generalizing p with
  | zero => rfl
  | succ n ih => exact ih (inside.andThen p)

theorem extract_behind_empty {k : Nat} (h : k < n) : (p.behind n).extract (.held k .empty) = none := by
  induction n generalizing k with
  | zero => exact absurd h k.not_lt_zero
  | succ n ih =>
    rw [behind_succ]
    cases k with
    | zero => rfl
    | succ k => exact ih (Nat.lt_of_succ_lt_succ h)

end Prism

/-! ### Accessors that follow a prism -/

namespace Erased
variable {R T V : Ty} {e : Erased R V} {p : Prism} {s : Store} {q : Place} {u v : Value}

/-- What an accessor finds for reading, and for writing if it writes at all. -/
def Finds (e : Erased R V) (s : Store) (q : Place) (o : Option Place) : Prop :=
  e.get s q = .ok (.done o) ∧ (e.flavor.writes = true → e.getMut s q = .ok (.done o))

/-- Wherever the value `u` is, the accessor finds a place with `v`. -/
def Extracts (e : Erased R V) (u v : Value) : Prop :=
  ∀ s q, s.get? q = some u → ∃ r, e.Finds s q (some r) ∧ s.get? r = some v

/-- Wherever the value `u` is, the accessor finds nothing. -/
def Misses (e : Erased R V) (u : Value) : Prop := ∀ s q, s.get? q = some u → e.Finds s q none

/-- The laws of a case accessor. -/
structure CaseLaws (e : Erased R V) : Prop where
  isCase : e.flavor.isCase = true
  /-- The value decides what is extracted, if anything. -/
  decided : ∀ u, e.Misses u ∨ ∃ v, e.Extracts u v
  /-- What was embedded is extracted. -/
  extract_embed : ∀ v, ∃ u, e.embed v = .ok (.done u) ∧ e.Extracts u v
  /-- What was extracted builds the value again. -/
  embed_extract : ∀ u v, e.Extracts u v → e.embed v = .ok (.done u)

/-- A case accessor builds as a prism does, and finds where the value is that the prism extracts. -/
structure Follows (e : Erased R V) (p : Prism) : Prop where
  isCase : e.flavor.isCase = true
  embed : ∀ v, e.embed v = .ok (.done (p.build v))
  finds : ∀ s q u, s.get? q = some u → ∃ o, e.Finds s q o ∧ o.map s.get? = (p.extract u).map some

theorem Follows.extracts_iff (h : e.Follows p) : e.Extracts u v ↔ p.extract u = some v := by
  constructor
  · intro extracts
    obtain ⟨r, hr, hv⟩ := extracts _ _ (Store.empty.get?_push u)
    obtain ⟨o, ho, same⟩ := h.finds _ _ _ (Store.empty.get?_push u)
    cases hr.1.symm.trans ho.1
    rw [Option.map_some, hv] at same
    obtain ⟨w, hw, eq⟩ := Option.map_eq_some_iff.mp same.symm
    cases eq
    exact hw
  · intro hv s q hu
    obtain ⟨o, ho, same⟩ := h.finds s q u hu
    rw [hv, Option.map_some] at same
    obtain ⟨r, rfl, hr⟩ := Option.map_eq_some_iff.mp same
    exact ⟨r, ho, hr⟩

theorem Follows.misses (h : e.Follows p) (hu : p.extract u = none) : e.Misses u := by
  intro s q hq
  obtain ⟨o, ho, same⟩ := h.finds s q u hq
  rw [hu, Option.map_none, Option.map_eq_none_iff] at same
  exact same ▸ ho

theorem Follows.caseLaws (h : e.Follows p) : e.CaseLaws where
  isCase := h.isCase
  decided u := by
    cases hu : p.extract u with
    | none => exact .inl (h.misses hu)
    | some v => exact .inr ⟨v, h.extracts_iff.mpr hu⟩
  extract_embed v := ⟨p.build v, h.embed v, h.extracts_iff.mpr (p.extract_build v)⟩
  embed_extract u v extracts := by rw [h.embed, p.build_of_extract (h.extracts_iff.mp extracts)]

/-! ### Through wrappers -/

theorem embed_of_isCase (h : e.flavor.isCase = true) (v : Value) : e.embed v = .ok (e.path.embed h v) := dif_pos h

end Erased

namespace Accessor
variable {f : Flavor} {T V : Ty} (w : Wrapper) (a : Accessor f T V) (h : f.isCase = true) (s : Store) (p : Place)

theorem find_throughCase (hr : f.reads = true) :
    (a.throughCase w h).find hr s p = (w.read s p).elim (.done none) (a.find hr s) := by
  refine (Found.map_toOption_cast _ _).trans ?_
  cases w.read s p <;> rfl

theorem findMut_throughCase (hw : f.writes = true) :
    (a.throughCase w h).findMut hw s p = (w.write s p).elim (.done none) (a.findMut hw s) := by
  refine (Found.map_toOption_cast _ _).trans ?_
  cases w.write s p <;> rfl

end Accessor

/-- A wrapper that can be built again is entered through the one value inside. -/
theorem Wrapper.steps_of_rewraps {w : Wrapper} (h : w.rewraps = true) (s : Store) (p : Place) :
    w.read s p = s.inside? p ∧ w.write s p = s.inside? p := by
  cases w <;> first | exact ⟨rfl, rfl⟩ | cases h

namespace Store
variable (s : Store) {p : Place} {u v : Value}

theorem inside?_eq (hu : s.get? p = some u) : s.inside? p = (Prism.inside.extract u).map fun _ => p.inside := by
  rw [inside?, hu]
  cases u <;> rfl

theorem get?_inside (hu : s.get? p = some u) (hv : Prism.inside.extract u = some v) :
    s.get? p.inside = some v := by
  have := Prism.inside.build_of_extract hv
  subst this
  rw [Place.inside, s.get?_step, hu]
  rfl

end Store

namespace Erased
variable {T V : Ty} {e : Erased T V} {p : Prism} {w : Wrapper}

theorem reads_of_isCase {f : Flavor} (h : f.isCase = true) : f.reads = true := by
  cases f <;> first | rfl | cases h

/-- Behind a wrapper that can be built again, an accessor finds what it finds in the one value inside. -/
theorem finds_throughCase {f : Flavor} {a : Accessor f T V} {s : Store} {q : Place} {o : Option Place}
    (he : f.isCase = true) (hw : w.rewraps = true)
    (h : (s.inside? q).elim (o = none) fun m => Finds ⟨f, a⟩ s m o) : Finds ⟨f, a.throughCase w he⟩ s q o := by
  obtain ⟨hread, hwrite⟩ := Wrapper.steps_of_rewraps hw s q
  constructor
  · have hr : f.reads = true := reads_of_isCase he
    refine (get_of_reads (e := ⟨f, a.throughCase w he⟩) hr s q).trans (congrArg Except.ok ?_)
    rw [Accessor.find_throughCase, hread]
    cases hi : s.inside? q with
    | none =>
      rw [hi] at h
      cases h
      rfl
    | some m =>
      rw [hi] at h
      exact Except.ok.inj ((get_of_reads hr s m).symm.trans h.1)
  · intro hm
    refine (getMut_of_writes (e := ⟨f, a.throughCase w he⟩) hm s q).trans (congrArg Except.ok ?_)
    rw [Accessor.findMut_throughCase, hwrite]
    cases hi : s.inside? q with
    | none =>
      rw [hi] at h
      cases h
      rfl
    | some m =>
      rw [hi] at h
      exact Except.ok.inj ((getMut_of_writes (e := ⟨f, a⟩) hm s m).symm.trans (h.2 hm))

/-- Behind a wrapper that can be built again, an accessor follows its prism behind that wrapper. -/
theorem Follows.through (h : e.Follows p) (hw : w.rewraps = true) : ∃ a : Erased (.wrap w T) V,
    e.through? w = some a ∧ a.flavor = e.flavor ∧ a.Follows (Prism.inside.andThen p) := by
  refine ⟨⟨e.flavor, e.path.throughCase w h.isCase⟩, dif_pos ⟨h.isCase, hw⟩, rfl, h.isCase, fun v => ?_, ?_⟩
  · have built := h.embed v
    rw [embed_of_isCase h.isCase] at built
    refine (embed_of_isCase (e := ⟨e.flavor, e.path.throughCase w h.isCase⟩) h.isCase v).trans ?_
    simp only [Accessor.throughCase, Except.ok.inj built, Run.map_done]
    rfl
  · intro s q u hu
    have inside := s.inside?_eq hu
    cases hx : Prism.inside.extract u with
    | none =>
      rw [hx] at inside
      refine ⟨none, finds_throughCase h.isCase hw (by rw [inside]; rfl), ?_⟩
      simp only [Prism.andThen, hx, Option.bind_none, Option.map_none]
    | some x =>
      rw [hx] at inside
      obtain ⟨o, found, same⟩ := h.finds s q.inside x (s.get?_inside hu hx)
      refine ⟨o, finds_throughCase h.isCase hw (by rw [inside]; exact found), ?_⟩
      simpa only [Prism.andThen, hx, Option.bind_some] using same

/-- Behind some wrappers that can be built again, a case accessor stays one, of the same flavor. -/
theorem Follows.throughAll {T : Ty} {e : Erased T V} {p : Prism} (h : e.Follows p) {ws : List Wrapper}
    (hws : ∀ w ∈ ws, w.rewraps = true) : ∃ a : Erased (ws.foldl (fun t w => .wrap w t) T) V,
    e.throughAll? ws = some ⟨_, a⟩ ∧ a.flavor = e.flavor ∧ a.Follows (p.behind ws.length) := by
  induction ws generalizing T p with
  | nil => exact ⟨e, rfl, rfl, h⟩
  | cons w ws ih =>
    obtain ⟨b, hb, flavor, follows⟩ := h.through (hws w (.head _))
    obtain ⟨a, ha, same, last⟩ := ih follows fun w hw => hws w (.tail _ hw)
    refine ⟨a, ?_, same.trans flavor, last⟩
    rw [throughAll?, hb]
    exact ha

end Erased

/-! ### The cases of a union -/

namespace UnionCase
variable (c : UnionCase) {U V : Ty} {f : Flavor} {e : Erased U V}

/-- The payload of the case. -/
def prism : Prism where
  extract := c.part?
  build := c.embed
  extract_build v := by simp [part?, embed]
  build_of_extract {u v} h := by
    unfold part? at h
    split at h
    · split at h
      · rename_i active
        cases h
        rw [embed, active]
      · cases h
    · cases h

theorem map_get?_extract {s : Store} {q : Place} {u : Value} (hu : s.get? q = some u) :
    (c.extract s q).map s.get? = (c.part? u).map some := by
  unfold extract
  rw [hu]
  cases u with
  | alternative i x =>
    simp only [part?]
    split
    · rw [Option.map_some, Place.inside, s.get?_step, hu]
      rfl
    · rfl
  | _ => rfl

variable {c}

theorem follows_prism (he : c.caseAccessor? U f = some (.fixed e)) : e.Follows c.prism := by
  unfold caseAccessor? at he
  split at he
  · cases f <;> cases he
    · exact ⟨rfl, fun _ => rfl, fun s q u hu => ⟨c.extract s q, ⟨rfl, nofun⟩, c.map_get?_extract hu⟩⟩
    · exact ⟨rfl, fun _ => rfl, fun s q u hu => ⟨c.extract s q, ⟨rfl, fun _ => rfl⟩, c.map_get?_extract hu⟩⟩
  · cases he

theorem flavor_of_caseAccessor? (he : c.caseAccessor? U f = some (.fixed e)) : e.flavor = f := by
  unfold caseAccessor? at he
  split at he
  · cases f <;> cases he <;> rfl
  · cases he

/-- What one case builds no other case finds. -/
theorem misses_embed {d : UnionCase} {W : Ty} {g : Flavor} {x : Erased U W} (other : d.index ≠ c.index)
    (hx : d.caseAccessor? U g = some (.fixed x)) (v : Value) : x.Misses (c.embed v) := by
  refine (follows_prism hx).misses ?_
  simp [prism, part?, embed, other.symm]

/-- The accessors of the cases of a union obey the laws of case accessors, no case finds what another one embeds,
    and behind optionals and owning pointers they are case accessors of the same flavor that obey the laws. They
    find nothing where one of the wrappers is empty. -/
theorem caseAccessor_laws (he : c.caseAccessor? U f = some (.fixed e)) : e.CaseLaws ∧
    (∀ (d : UnionCase) (g : Flavor) (W : Ty) (x : Erased U W), d.index ≠ c.index →
      d.caseAccessor? U g = some (.fixed x) → ∀ v u, e.embed v = .ok (.done u) → x.Misses u) ∧
    ∀ ws : List Wrapper, (∀ w ∈ ws, w.rewraps = true) →
      ∃ a : Erased (ws.foldl (fun t w => .wrap w t) U) V, e.throughAll? ws = some ⟨_, a⟩ ∧ a.flavor = f ∧
        a.CaseLaws ∧ ∀ k < ws.length, a.Misses (.held k .empty) := by
  have follows := follows_prism he
  refine ⟨follows.caseLaws, fun d g W x other hx v u hu => ?_, fun ws hws => ?_⟩
  · cases (follows.embed v).symm.trans hu
    exact misses_embed other hx v
  · obtain ⟨a, ha, flavor, last⟩ := follows.throughAll hws
    exact ⟨a, ha, flavor.trans (flavor_of_caseAccessor? he), last.caseLaws,
      fun k hk => last.misses (c.prism.extract_behind_empty ws.length hk)⟩

/-- The second case of a reading, writable, behind an optional that an owning pointer owns. -/
theorem caseAccessor_laws_text :
    caseAccessor? ⟨"text", 1, .single (.plain "std::string"), .all⟩ (.plain "w::Reading") .caseWritable =
      some (.fixed (.of (caseW ⟨"text", 1, .single (.plain "std::string"), .all⟩ (.plain "w::Reading")))) ∧
    (Erased.of (caseW ⟨"text", 1, .single (.plain "std::string"), .all⟩ (.plain "w::Reading"))).CaseLaws ∧
    ∃ a : Erased (.wrap .unique (.wrap .optional (.plain "w::Reading"))) (.plain "std::string"),
      (Erased.of (caseW ⟨"text", 1, .single (.plain "std::string"), .all⟩ (.plain "w::Reading"))).throughAll?
        [.optional, .unique] = some ⟨_, a⟩ ∧
      a.flavor = .caseWritable ∧ a.CaseLaws ∧ ∀ k < 2, a.Misses (.held k .empty) := by
  obtain ⟨laws, -, adapted⟩ := caseAccessor_laws (c := ⟨"text", 1, .single (.plain "std::string"), .all⟩)
    (U := .plain "w::Reading") (f := .caseWritable) rfl
  exact ⟨rfl, laws, adapted [.optional, .unique] (by decide)⟩

end UnionCase
end Accessors
