import Accessors.Member
import Accessors.Proofs.Ty.Layers
import Accessors.Proofs.Wrapper.Steps

/-! # Passages

The step into a value in one go passes the wrappers that merge, one after the other. What holds of every
single step is put together along the way: the step for writing leads where the one for reading does if every
handle passed is a sole owner, and a change of what was found leaves the way to it as it was. -/

namespace Accessors

/-! ### Steps in a row -/

namespace Passage

/-- The place behind some wrappers, for reading. -/
def read (s : Store) : List Wrapper → Place → Option Place
  | [], p => some p
  | w :: ws, p => (w.read s p).bind (read s ws)

/-- The place behind some wrappers, for writing. -/
def write (s : Store) : List Wrapper → Place → Option Place
  | [], p => some p
  | w :: ws, p => (w.write s p).bind (write s ws)

/-- The cells of the handles on the way. -/
def handles (s : Store) : List Wrapper → Place → List Nat
  | [], _ => []
  | w :: ws, p => w.passed s p ++ (w.read s p).elim [] (handles s ws)

/-- The places that are looked at on the way. -/
def places (s : Store) : List Wrapper → Place → List Place
  | [], _ => []
  | w :: ws, p => p :: (w.read s p).elim [] (places s ws)

variable {s t : Store} {ws : List Wrapper} {p q r : Place} {i : Nat}

/-- The way for writing is the way for reading, if every handle passed is a sole owner. -/
theorem write_eq_some_iff (lends : ∀ w ∈ ws, w.lendsMut = true) :
    write s ws p = some q ↔ read s ws p = some q ∧ ∀ c ∈ handles s ws p, s.liveOwners c = 1 := by
  induction ws generalizing p with
  | nil => simp [write, read, handles]
  | cons w ws ih =>
    have step := fun m => Wrapper.write_eq_some_iff (w := w) (s := s) (p := p) (q := m) (lends w (.head _))
    have rest := fun m => ih (p := m) fun v hv => lends v (.tail _ hv)
    simp only [write, read, handles, Option.bind_eq_some_iff, List.mem_append]
    constructor
    · rintro ⟨m, hm, hq⟩
      obtain ⟨hm, sole⟩ := (step m).mp hm
      obtain ⟨hq, soles⟩ := (rest m).mp hq
      refine ⟨⟨m, hm, hq⟩, fun c hc => ?_⟩
      rw [hm] at hc
      exact hc.elim (sole c) (soles c)
    · rintro ⟨⟨m, hm, hq⟩, soles⟩
      rw [hm] at soles
      exact ⟨m, (step m).mpr ⟨hm, fun c hc => soles c (.inl hc)⟩,
        (rest m).mpr ⟨hq, fun c hc => soles c (.inr hc)⟩⟩

/-- The way depends only on the outlines of the places looked at. -/
theorem congr (h : ∀ r ∈ places s ws p, s.Alike t r) :
    read s ws p = read t ws p ∧ handles s ws p = handles t ws p := by
  induction ws generalizing p with
  | nil => exact ⟨rfl, rfl⟩
  | cons w ws ih =>
    have here : s.Alike t p := h p (.head _)
    simp only [read, handles, ← Wrapper.read_congr here, ← Wrapper.passed_congr here]
    cases hm : w.read s p with
    | none => exact ⟨rfl, rfl⟩
    | some m =>
      have rest := ih (p := m) fun r hr => h r (.tail _ (by rw [hm]; exact hr))
      simp only [Option.bind_some, Option.elim_some, rest.1, rest.2, and_self]

theorem exists_get? (closed : s.Closed) (hp : ∃ u, s.get? p = some u) (h : read s ws p = some q) :
    ∃ u, s.get? q = some u := by
  induction ws generalizing p with
  | nil =>
    cases h
    exact hp
  | cons w ws ih =>
    obtain ⟨m, hm, hq⟩ := Option.bind_eq_some_iff.mp h
    exact ih (Wrapper.exists_get?_of_read closed hm) hq

/-! ### Ways without handles -/

section
variable (inside : ∀ w ∈ ws, w.sharing = .none)
include inside

theorem handles_of_inside (s : Store) (p : Place) : handles s ws p = [] := by
  induction ws generalizing p with
  | nil => rfl
  | cons w ws ih =>
    simp only [handles, Wrapper.passed, inside w (.head _), ↓reduceIte, List.nil_append]
    cases w.read s p with
    | none => rfl
    | some m => exact ih (fun v hv => inside v (.tail _ hv)) m

/-- Without handles the way leads as many steps further in as there are wrappers. -/
theorem read_of_inside (h : read s ws p = some q) :
    p.Covers q ∧ q.path.length = p.path.length + ws.length := by
  induction ws generalizing p with
  | nil =>
    cases h
    exact ⟨Place.covers_refl _, rfl⟩
  | cons w ws ih =>
    obtain ⟨m, hm, hq⟩ := Option.bind_eq_some_iff.mp h
    obtain ⟨covers, length⟩ := Wrapper.read_inside (inside w (.head _)) hm
    obtain ⟨covers', length'⟩ := ih (fun v hv => inside v (.tail _ hv)) hq
    refine ⟨covers.trans covers', ?_⟩
    rw [length', length, List.length_cons]
    omega

theorem places_of_inside (h : r ∈ places s ws p) :
    r.base = p.base ∧ r.path.length < p.path.length + ws.length := by
  induction ws generalizing p with
  | nil => cases h
  | cons w ws ih =>
    simp only [places, List.mem_cons] at h
    rcases h with rfl | h
    · exact ⟨rfl, by simp⟩
    · cases hm : w.read s p with
      | none =>
        rw [hm] at h
        cases h
      | some m =>
        rw [hm] at h
        obtain ⟨⟨base, -⟩, length⟩ := Wrapper.read_inside (inside w (.head _)) hm
        obtain ⟨base', length'⟩ := ih (fun v hv => inside v (.tail _ hv)) h
        refine ⟨base'.trans base, ?_⟩
        rw [List.length_cons]
        omega

end

/-! ### Ways through one handle at most -/

/-- Of two wrappers on the way one is no handle. -/
def Once (ws : List Wrapper) : Prop := ws.Pairwise fun w v => w.sharing = .none ∨ v.sharing = .none

/-- Where a way leads from a variable. What is found covers nothing that was looked at. A handle on the way is the
    variable's, and what is found is in the cell it owns; without one it is in the variable. -/
structure Leads (s : Store) (ws : List Wrapper) (i : Nat) (p q : Place) : Prop where
  not_covers : ∀ r ∈ places s ws p, ¬q.Covers r
  handle : ∀ c ∈ handles s ws p, q.base = .cell c ∧ ∃ v, s.slots[i]? = some v ∧ 0 < v.owners c
  base : q.base = p.base ∧ q.path.length = p.path.length + ws.length ∨ ∃ c, q.base = .cell c

/-- A step further in, and then on from there. -/
theorem Leads.inside {w : Wrapper} {m : Place} (hw : w.sharing = .none) (hp : p.base = .slot i)
    (hm : w.read s p = some m) (rest : Leads s ws i m q) : Leads s (w :: ws) i p q := by
  obtain ⟨⟨base, -⟩, length⟩ := Wrapper.read_inside hw hm
  refine ⟨fun r hr => ?_, fun c hc => ?_, ?_⟩
  · simp only [places, hm, Option.elim_some, List.mem_cons] at hr
    rcases hr with rfl | hr
    · rcases rest.base with ⟨-, longer⟩ | ⟨c, hc⟩
      · exact Place.not_covers_of_length (by omega)
      · exact Place.not_covers_of_base (by rw [hp, hc]; exact Base.noConfusion)
    · exact rest.not_covers r hr
  · simp only [handles, Wrapper.passed, hw, ↓reduceIte, hm, Option.elim_some, List.nil_append] at hc
    exact rest.handle c hc
  · rcases rest.base with ⟨base', length'⟩ | cell
    · exact .inl ⟨base'.trans base, by rw [length', length, List.length_cons]; omega⟩
    · exact .inr cell

/-- A step through a handle, and then only further in: the cell is not where the handle is. -/
theorem Leads.through {w : Wrapper} {c : Nat} (hw : w.sharing ≠ .none) (hp : p.base = .slot i)
    (hc : s.handle? p = some c) (inside : ∀ v ∈ ws, v.sharing = .none) (hq : read s ws (.cell c) = some q) :
    Leads s (w :: ws) i p q := by
  obtain ⟨⟨hbase, -⟩, length⟩ := read_of_inside inside hq
  have base : q.base = .cell c := hbase
  refine ⟨fun r hr => ?_, fun d hd => ?_, .inr ⟨c, base⟩⟩
  · simp only [places, Wrapper.read_of_handle hw, hc, Option.map_some, Option.elim_some, List.mem_cons] at hr
    rcases hr with rfl | hr
    · exact Place.not_covers_of_base (by rw [hp, base]; exact Base.noConfusion)
    · obtain ⟨-, shorter⟩ := places_of_inside inside hr
      exact Place.not_covers_of_length (by omega)
  · simp only [handles, Wrapper.read_of_handle hw, Wrapper.passed, hw, ↓reduceIte, hc, Option.toList_some,
      Option.map_some, Option.elim_some, handles_of_inside inside, List.append_nil, List.mem_singleton] at hd
    subst hd
    obtain ⟨v, hv, owns⟩ := Store.owned_of_handle? hc
    rw [hp] at hv
    exact ⟨base, v, hv, owns⟩

theorem leads (once : Once ws) (hp : p.base = .slot i) (h : read s ws p = some q) : Leads s ws i p q := by
  induction ws generalizing p with
  | nil =>
    cases h
    exact ⟨List.forall_mem_nil _, List.forall_mem_nil _, .inl ⟨rfl, rfl⟩⟩
  | cons w ws ih =>
    obtain ⟨m, hm, hq⟩ := Option.bind_eq_some_iff.mp h
    obtain ⟨others, once⟩ := List.pairwise_cons.mp once
    by_cases hw : w.sharing = .none
    · exact .inside hw hp hm (ih once ((Wrapper.read_inside hw hm).1.1.trans hp) hq)
    · rw [Wrapper.read_of_handle hw, Option.map_eq_some_iff] at hm
      obtain ⟨c, hc, rfl⟩ := hm
      exact .through hw hp hc (fun v hv => (others v hv).resolve_left hw) hq

theorem base_of_places (hr : r ∈ places s ws p) : r.base = p.base ∨ ∃ c, r.base = .cell c := by
  induction ws generalizing p with
  | nil => cases hr
  | cons w ws ih =>
    simp only [places, List.mem_cons] at hr
    rcases hr with rfl | hr
    · exact .inl rfl
    · cases hm : w.read s p with
      | none =>
        rw [hm] at hr
        cases hr
      | some m =>
        rw [hm] at hr
        rcases ih hr with base | cell
        · by_cases hw : w.sharing = .none
          · exact .inl (base.trans (Wrapper.read_inside hw hm).1.1)
          · rw [Wrapper.read_of_handle hw, Option.map_eq_some_iff] at hm
            obtain ⟨c, -, rfl⟩ := hm
            exact .inr ⟨c, base⟩
        · exact .inr cell

/-! ### Ways to an element -/

/-- A way to the element of a container at a position: some wrappers around the container, and some around the
    element. -/
structure At where
  before : List Wrapper
  container : Wrapper
  behind : List Wrapper

namespace At
variable {a : At} {pos pos' : Position}

/-- The place of the element at a position, for reading. -/
def read (a : At) (pos : Position) (s : Store) (p : Place) : Option Place :=
  ((Passage.read s a.before p).bind (a.container.readAt pos s)).bind (Passage.read s a.behind)

/-- The place of the element at a position, for writing. -/
def write (a : At) (pos : Position) (s : Store) (p : Place) : Option Place :=
  ((Passage.write s a.before p).bind (a.container.writeAt pos s)).bind (Passage.write s a.behind)

/-- The cells of the handles on the way to the element at a position. -/
def handles (a : At) (pos : Position) (s : Store) (p : Place) : List Nat :=
  Passage.handles s a.before p ++
    ((Passage.read s a.before p).bind (a.container.readAt pos s)).elim [] (Passage.handles s a.behind)

/-- How many steps in the elements are. -/
def depth (a : At) : Nat := a.before.length + a.container.depthAt + a.behind.length

/-- A container that lends its elements for writing, with no handle and nothing that refuses on the way. -/
structure Lends (a : At) : Prop where
  before : ∀ w ∈ a.before, w.lendsMut = true ∧ w.sharing = .none
  container : a.container.lendsMutAt = true
  behind : ∀ w ∈ a.behind, w.lendsMut = true ∧ w.sharing = .none

/-- The way to an element goes through the container at `m` and the element at `e`. -/
structure Via (a : At) (pos : Position) (s : Store) (p m e q : Place) : Prop where
  container : Passage.read s a.before p = some m
  element : a.container.readAt pos s m = some e
  found : Passage.read s a.behind e = some q
  base : m.base = p.base
  containerDepth : m.path.length = p.path.length + a.before.length
  covers : m.Covers e
  elementDepth : e.path.length = m.path.length + a.container.depthAt
  coversFound : e.Covers q
  foundDepth : q.path.length = e.path.length + a.behind.length

variable (lends : a.Lends)
include lends

theorem handles_eq_nil : a.handles pos s p = [] := by
  rw [handles, handles_of_inside fun w hw => (lends.before w hw).2]
  cases (Passage.read s a.before p).bind (a.container.readAt pos s) with
  | none => rfl
  | some m => exact handles_of_inside (fun w hw => (lends.behind w hw).2) s m

theorem write_eq_read : a.write pos s p = a.read pos s p := by
  have same : ∀ ws : List Wrapper, (∀ w ∈ ws, w.lendsMut = true ∧ w.sharing = .none) → ∀ m,
      Passage.write s ws m = Passage.read s ws m := by
    intro ws hws m
    refine Option.ext fun q => ?_
    rw [write_eq_some_iff fun w hw => (hws w hw).1, handles_of_inside fun w hw => (hws w hw).2]
    simp
  have element : (fun m => a.container.writeAt pos s m) = fun m => a.container.readAt pos s m :=
    funext fun m => Wrapper.writeAt_eq_readAt lends.container
  simp only [write, read, same a.before lends.before]
  rw [show a.container.writeAt pos s = a.container.readAt pos s from element,
    show Passage.write s a.behind = Passage.read s a.behind from funext (same a.behind lends.behind)]

theorem exists_via (h : a.read pos s p = some q) : ∃ m e, a.Via pos s p m e q := by
  obtain ⟨e, he, hq⟩ := Option.bind_eq_some_iff.mp h
  obtain ⟨m, hm, he⟩ := Option.bind_eq_some_iff.mp he
  obtain ⟨⟨base, -⟩, length⟩ := read_of_inside (fun w hw => (lends.before w hw).2) hm
  obtain ⟨covers', length'⟩ := Wrapper.readAt_inside lends.container he
  obtain ⟨covers'', length''⟩ := read_of_inside (fun w hw => (lends.behind w hw).2) hq
  exact ⟨m, e, hm, he, hq, base, length, covers', length', covers'', length''⟩

theorem read_inside (h : a.read pos s p = some q) :
    q.base = p.base ∧ q.path.length = p.path.length + a.depth := by
  obtain ⟨m, e, via⟩ := exists_via lends h
  refine ⟨via.coversFound.1.trans (via.covers.1.trans via.base), ?_⟩
  rw [via.foundDepth, via.elementDepth, via.containerDepth, depth]
  omega

theorem exists_get? (h : a.read pos s p = some q) (closed : s.Closed) : ∃ u, s.get? q = some u := by
  obtain ⟨m, e, via⟩ := exists_via lends h
  exact Passage.exists_get? closed (Wrapper.exists_get?_of_readAt lends.container via.element) via.found

theorem not_covers (h : a.read pos s p = some q) (h' : a.read pos' s p = some r) (hne : pos ≠ pos') :
    ¬q.Covers r := by
  obtain ⟨m, e, via⟩ := exists_via lends h
  obtain ⟨m', e', via'⟩ := exists_via lends h'
  cases via.container.symm.trans via'.container
  intro hcovers
  have same : e = e' := by
    refine (via.coversFound.trans hcovers).eq_of_length via'.coversFound ?_
    rw [via.elementDepth, via'.elementDepth]
  subst same
  exact hne (Wrapper.readAt_injective lends.container via.element via'.element)

/-- The way to an element depends only on what is less deep than the elements. -/
theorem read_congr (h : ∀ r : Place, r.base = p.base → r.path.length < p.path.length + a.depth → s.Alike t r) :
    a.read pos s p = a.read pos t p := by
  have toContainer : Passage.read s a.before p = Passage.read t a.before p := by
    refine (congr fun r hr => ?_).1
    obtain ⟨base, length⟩ := places_of_inside (fun w hw => (lends.before w hw).2) hr
    exact h r base (by rw [depth]; omega)
  rw [read, read, ← toContainer]
  cases hm : Passage.read s a.before p with
  | none => rfl
  | some m =>
    obtain ⟨⟨base, -⟩, length⟩ := read_of_inside (fun w hw => (lends.before w hw).2) hm
    have toElement : a.container.readAt pos s m = a.container.readAt pos t m := by
      refine Wrapper.readAt_congr lends.container fun r hr hlt => ?_
      exact h r (hr.trans base) (by rw [depth]; omega)
    simp only [Option.bind_some, ← toElement]
    cases he : a.container.readAt pos s m with
    | none => rfl
    | some e =>
      obtain ⟨⟨base', -⟩, length'⟩ := Wrapper.readAt_inside lends.container he
      refine (congr fun r hr => ?_).1
      obtain ⟨base'', length''⟩ := places_of_inside (fun w hw => (lends.behind w hw).2) hr
      exact h r (base''.trans (base'.trans base)) (by rw [depth]; omega)

/-- Putting a value at an element leaves the way to every element. -/
theorem read_set (h : a.read pos s p = some q) (x : Value) (pos' : Position) :
    a.read pos' (s.set q x) p = a.read pos' s p := by
  refine (read_congr lends fun r _ shorter => Store.alike_set ?_).symm
  obtain ⟨-, length⟩ := read_inside lends h
  exact Place.not_covers_of_length (by omega)

end At

end Passage
end Accessors
