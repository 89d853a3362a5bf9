import Accessors.Proofs.Store.Agreement

/-! # Replacing a pointee

A pointee with one owner is replaced by a value that was kept in a variable of its own until then. Cells that
only the old pointee kept alive die, and those that the new one brings in are live already. So the owner stays
the only one, whoever else comes and goes. -/

namespace Accessors.Store
variable {s t : Store} {c d e i : Nat} {v x y o : Value} {q : Place}

/-- A handle in a variable is the one live owner of a cell if nothing else in variables or outside owns the cell,
    and no live cell does. -/
theorem liveOwners_eq_one_iff (h : 0 < Value.ownersIn c s.slots) :
    s.liveOwners c = 1 ↔ Value.ownersIn c s.slots + s.held.count c = 1 ∧
      ∀ d u, s.Live d → s.cells[d]? = some u → u.owners c = 0 := by
  have cells : Value.ownersIn c s.liveCells = 0 ↔ ∀ d u, s.Live d → s.cells[d]? = some u → u.owners c = 0 := by
    constructor
    · intro hzero d u live hu
      have := Value.owners_le_ownersIn (c := c) ((getElem?_liveCells live).trans hu)
      omega
    · intro hall
      by_contra hne
      obtain ⟨d, u, hu, hpos⟩ := Value.ownersIn_pos_iff.mp (Nat.pos_of_ne_zero hne)
      by_cases live : s.Live d
      · have := hall d u live ((getElem?_liveCells live).symm.trans hu)
        omega
      · simp only [liveCells, List.getElem?_mapIdx, live, ↓reduceIte, Option.map_eq_some_iff] at hu
        obtain ⟨-, -, rfl⟩ := hu
        rw [Value.owners_moved] at hpos
        exact absurd hpos (Nat.lt_irrefl 0)
  rw [← cells, liveOwners]
  omega

theorem sole_of_push (h : 0 < Value.ownersIn c s.slots) (sole : (s.push x).1.liveOwners c = 1) :
    s.liveOwners c = 1 := by
  have h' : 0 < Value.ownersIn c (s.push x).1.slots := by
    rw [ownersIn_push]
    omega
  obtain ⟨count, cells⟩ := (liveOwners_eq_one_iff h').mp sole
  refine (liveOwners_eq_one_iff h).mpr ⟨?_, fun d u live hu => cells d u (live.push x) hu⟩
  rw [ownersIn_push] at count
  simp only [Store.push] at count
  omega

/-! ### Another pointee -/

/-- A cell that is live after a change of one cell was live before, or the new pointee reaches it. -/
theorem live_or_reached (slots : t.slots = s.slots) (held : t.held = s.held)
    (others : ∀ d, d ≠ c → t.cells[d]? = s.cells[d]?) (ho : t.cells[c]? = some o) (h : t.Live e) :
    s.Live e ∨ Reaches t.cells o e := by
  by_cases hr : Reaches t.cells o e
  · exact .inr hr
  · -- The live cells that the pointee does not reach keep each other without it.
    refine .inl ⟨fun d => t.Live d ∧ ¬Reaches t.cells o d, fun d ⟨live, apart⟩ => ?_, h, hr⟩
    rcases t.supported_live d live with slot | out | ⟨f, u, hf, hu, owns⟩
    · exact .inl (slots ▸ slot)
    · exact .inr (.inl (held ▸ out))
    · have hne : f ≠ c := by
        rintro rfl
        cases ho.symm.trans hu
        exact apart (.owned owns)
      refine .inr (.inr ⟨f, u, ⟨hf, fun r => apart (.through r hu owns)⟩, ?_, owns⟩)
      rw [← others f hne, hu]

theorem reaches_of_set {cells : List Value} {o' : Value} (ho : cells[c]? = some o)
    (owns : ∀ d, o'.owners d ≤ o.owners d + x.owners d) (r : Reaches (cells.set c o') o' e) :
    Reaches cells o e ∨ Reaches cells x e := by
  have direct : ∀ {d}, 0 < o'.owners d → Reaches cells o d ∨ Reaches cells x d := fun {d} h => by
    have := owns d
    rcases Nat.eq_zero_or_pos (o.owners d) with zero | pos
    · exact .inr (.owned (by omega))
    · exact .inl (.owned pos)
  induction r with
  | owned h => exact direct h
  | @through e d u _ hd h ih =>
    by_cases hdc : d = c
    · subst hdc
      rw [List.getElem?_set_self (List.getElem?_eq_some_iff.mp ho).1] at hd
      cases hd
      exact direct h
    · rw [List.getElem?_set_ne (Ne.symm hdc)] at hd
      rcases ih with r | r
      · exact .inl (.through r hd h)
      · exact .inr (.through r hd h)

/-- With another pointee no live cell owns the cell either, if neither the pointee does nor what it reaches. -/
theorem not_owned_of_pointee (slots : t.slots = s.slots) (held : t.held = s.held)
    (others : ∀ d, d ≠ c → t.cells[d]? = s.cells[d]?) (ho : t.cells[c]? = some o) (here : o.owners c = 0)
    (reached : ∀ d u, Reaches t.cells o d → s.cells[d]? = some u → u.owners c = 0 ∨ d = c)
    (h : ∀ d u, s.Live d → s.cells[d]? = some u → u.owners c = 0) :
    ∀ d u, t.Live d → t.cells[d]? = some u → u.owners c = 0 := by
  intro d u live hu
  by_cases hd : d = c
  · subst hd
    cases ho.symm.trans hu
    exact here
  · have hu' : s.cells[d]? = some u := (others d hd).symm.trans hu
    rcases live_or_reached slots held others ho live with live' | r
    · exact h d u live' hu'
    · exact (reached d u r hu').resolve_right hd

/-- Where the root's handle is a sole owner while the new value is kept, it is one afterwards exactly if it would
    have been one without the change. -/
theorem sole_set_iff (base : q.base = .cell c) (h : 0 < Value.ownersIn c s.slots)
    (sole : (s.push x).1.liveOwners c = 1) :
    ((s.set q x).push y).1.liveOwners c = 1 ↔ (s.push y).1.liveOwners c = 1 := by
  cases ho : s.cells[c]? with
  | none => simp only [set, base, root?, ho]
  | some o =>
    obtain ⟨o', ho', hset⟩ : ∃ o', o' = o.set q.path x ∧
        s.set q x = { s with cells := s.cells.set c o' } := ⟨_, rfl, by simp only [set, base, root?, ho, setRoot]⟩
    rw [hset]
    have owns : ∀ d, o'.owners d ≤ o.owners d + x.owners d := fun d => ho' ▸ Value.owners_set_le o x q.path
    have hx : 0 < Value.ownersIn c (s.push x).1.slots := by
      rw [ownersIn_push]
      omega
    have hy : 0 < Value.ownersIn c (s.push y).1.slots := by
      rw [ownersIn_push]
      omega
    -- While the new value is kept, neither the old pointee nor the value owns the cell, nor what they reach.
    obtain ⟨count, cells⟩ := (liveOwners_eq_one_iff hx).mp sole
    have live : (s.push x).1.Live c := live_iff_liveOwners.mpr (by omega)
    have hroot : (s.push x).1.root? (.slot s.slots.length) = some x := by
      simp [root?, Store.push]
    have old : o.owners c = 0 := cells c o live ho
    have new : x.owners c = 0 := by
      rw [ownersIn_push] at count
      omega
    have reachedOld : ∀ d u, Reaches s.cells o d → s.cells[d]? = some u → u.owners c = 0 := fun d u r hu =>
      cells d u (live_of_reaches (b := .cell c) ho live r) hu
    have reachedNew : ∀ d u, Reaches s.cells x d → s.cells[d]? = some u → u.owners c = 0 := fun d u r hu =>
      cells d u (live_of_reaches hroot trivial r) hu
    have self : (s.cells.set c o')[c]? = some o' := List.getElem?_set_self (List.getElem?_eq_some_iff.mp ho).1
    have others : ∀ d, d ≠ c → (s.cells.set c o')[d]? = s.cells[d]? := fun d hd =>
      List.getElem?_set_ne (Ne.symm hd)
    -- The variables and the outside owners are the same before and after, so only live cells matter.
    rw [liveOwners_eq_one_iff (s := (({ s with cells := s.cells.set c o' } : Store).push y).1) hy,
      liveOwners_eq_one_iff hy]
    refine and_congr_right fun _ => ⟨not_owned_of_pointee rfl rfl (fun d hd => (others d hd).symm) ho old ?_,
      not_owned_of_pointee rfl rfl others self (by have := owns c; omega) ?_⟩
    · intro d u r hu
      by_cases hd : d = c
      · exact .inr hd
      · exact .inl (reachedOld d u r ((others d hd).symm.trans hu))
    · intro d u r hu
      rcases reaches_of_set ho owns r with r | r
      · exact .inl (reachedOld d u r hu)
      · exact .inl (reachedNew d u r hu)

end Accessors.Store
