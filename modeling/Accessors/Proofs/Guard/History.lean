import Accessors.Proofs.Guard.Access
import Accessors.Sample.Types
import Mathlib.Data.List.Induction

/-! # Guarded values over time

A run reads and writes guarded values and clears their poison, in any order. A guarded value is poisoned after
a run exactly if a writer broke off in it and its poison was not cleared afterwards, and what is behind a guard
changes only where a writer was run. -/

namespace Accessors.Guard
variable {α : Type} {s : Store} {g h p r : Place} {v : Value} {b : Bool}

/-! ### The flag -/

/-- Whether the guarded value at a place is poisoned, if there is one. -/
def flag? (s : Store) (g : Place) : Option Bool :=
  match s.get? g with
  | some (.guarded b _) => some b
  | _ => none

theorem exists_get?_of_flag? (hg : flag? s g = some b) : ∃ v, s.get? g = some (.guarded b v) := by
  unfold flag? at hg
  split at hg
  · rename_i c v hv
    exact ⟨v, Option.some.inj hg ▸ hv⟩
  · cases hg

theorem poisoned_of_flag? (hg : flag? s g = some b) : poisoned s g = b := by
  obtain ⟨v, hv⟩ := exists_get?_of_flag? hg
  simp only [poisoned, hv]

theorem flag?_of_get? (hg : s.get? g = some (.guarded b v)) : flag? s g = some b := by
  simp only [flag?, hg]

theorem flag?_congr {t : Store} (hg : s.Alike t g) : flag? s g = flag? t g := by
  unfold flag?
  rcases hg.get? with ⟨hs, ht⟩ | ⟨v, w, hs, ht, ho⟩ <;> rw [hs, ht]
  cases v <;> cases w <;> simp_all [Value.outline]

theorem flag?_setPoison (hg : flag? s g = some b) (c : Bool) : flag? (setPoison s g c) g = some c := by
  obtain ⟨v, hv⟩ := exists_get?_of_flag? hg
  refine flag?_of_get? (v := v) ?_
  simp only [setPoison, hv, Store.get?_set hv]

/-- Each guarded value has a flag of its own, also where one is behind another. -/
theorem flag?_setPoison_ne (hne : g ≠ h) (c : Bool) : flag? (setPoison s h c) g = flag? s g := by
  by_cases hc : g.Covers h
  · unfold setPoison
    split
    · refine (flag?_congr (Store.alike_set fun hc' => hne ?_)).symm
      exact hc.eq_of_length (Place.covers_refl h) (Nat.le_antisymm hc.2.length_le hc'.2.length_le)
    · rfl
  · simp only [flag?, get?_setPoison hc]

/-! ### Moves -/

/-- A guarded value is read or written, or its poison is cleared. -/
inductive Move (α : Type) where
  | read (w : Way .read) (f : Store → Place → Except String α)
  | write (w : Way .write) (f : Writer α)
  | clear (g : Place)

/-- The store after a move. Whoever runs a function that breaks off goes on with what it left. -/
def step (s : Store) : Move α → Store
  | .read w f => (w.read s f).store
  | .write w f => (w.write s f.run).store
  | .clear g => clearPoison s g

def run (s : Store) (ms : List (Move α)) : Store := ms.foldl step s

namespace Move

/-- A writer is run behind the guard at `g` and breaks off. -/
def Poisons (g : Place) (s : Store) : Move α → Prop
  | write w f => w.LeadsTo s g ∧ (w.write s f.run).calls = 1 ∧ ∃ e, (w.write s f.run).outcome = .error e
  | _ => False

/-- A writer that is run at the guarded value at `g`, or around it, leaves it there: it is neither assigned nor
    destroyed. -/
def Spares (g : Place) (s : Store) : Move α → Prop
  | write w f => ∀ h p, w.RunsAt s h p → p.Covers g → flag? (f.run s p).1 g = flag? s g
  | _ => True

/-- May change what is at `r`: a writer at it, inside or around, or a change of the poison that is part of it. -/
def Touches (r : Place) (s : Store) : Move α → Prop
  | read _ _ => False
  | write w _ => ∃ h p, w.RunsAt s h p ∧ (p.Covers r ∨ r.Covers p ∨ r.Covers h)
  | clear h => r.Covers h

/-- Answers as it should, and leaves what it does not write. -/
def Obeys (s : Store) : Move α → Prop
  | read w f => Answers w s f (w.read s f) ∧ (w.read s f).store = s
  | write w f => Answers w s (fun s p => (f.run s p).2) (w.write s f.run) ∧ Writes w s f (w.write s f.run)
  | clear g => inner? (clearPoison s g) g = inner? s g

theorem obeys (s : Store) (m : Move α) : m.Obeys s := by
  cases m with
  | read w f => exact ⟨answers_read w s f, store_read w s f⟩
  | write w f => exact ⟨answers_write w s f, writes_write w s f⟩
  | clear g => exact inner?_setPoison

theorem poisons_write_iff {w : Way .write} {f : Writer α} :
    (write w f).Poisons g s ↔ ∃ p e, w.RunsAt s g p ∧ (f.run s p).2 = .error e := by
  have answers := answers_write w s f
  constructor
  · rintro ⟨leads, calls, e, outcome⟩
    rcases answers.called.mp calls with ⟨v, ok⟩ | ⟨h, p, e, hr, he⟩
    · cases ok.symm.trans outcome
    · exact hr.leads.unique leads ▸ ⟨p, e, hr, he⟩
  · rintro ⟨p, e, hr, he⟩
    obtain ⟨-, calls, outcome⟩ := answers.runs g p hr
    exact ⟨hr.leads, calls, e, by rw [outcome, he, Except.map]⟩

end Move

/-! ### One move -/

theorem flag?_writer {w : Way .write} {f : Writer α} (hg : flag? s g = some b) (spares : (Move.write w f).Spares g s)
    (hr : w.RunsAt s h p) : flag? (f.run s p).1 g = some b := by
  by_cases hc : p.Covers g
  · exact (spares h p hr hc).trans hg
  · -- Away from its own place a writer leaves outlines, and the flag is part of one.
    obtain ⟨v, hv⟩ := exists_get?_of_flag? hg
    have leaves : flag? (f.run s p).1 g = flag? (s.set p (f.leaves s p)) g := by
      simp only [flag?, Writer.get?_run (f := f) (p := p) (Option.isSome_of_mem hv)]
    rw [leaves, ← flag?_congr (Store.alike_set hc), hg]

theorem flag?_write {w : Way .write} {f : Writer α} (hg : flag? s g = some b) (spares : (Move.write w f).Spares g s)
    (kept : ¬(Move.write w f).Poisons g s) : flag? (w.write s f.run).store g = some b := by
  by_cases hr : ∃ h p, w.RunsAt s h p
  · obtain ⟨h, p, hr⟩ := hr
    have left := flag?_writer hg spares hr
    cases ho : (f.run s p).2 with
    | ok a => simp only [store_write hr, settled, ho, left]
    | error e =>
      -- The poison set is that of another guard, or this one would be poisoned.
      have hne : g ≠ h := fun he => kept (Move.poisons_write_iff.mpr ⟨p, e, he ▸ hr, ho⟩)
      simp only [store_write hr, settled, ho, flag?_setPoison_ne hne, left]
  · rw [((answers_write w s f).idle fun h p hp => hr ⟨h, p, hp⟩).2, hg]

/-- A move poisons a guarded value, clears its poison, or leaves it as it was. -/
theorem flag?_step {m : Move α} (hg : flag? s g = some b) (spares : m.Spares g s) :
    ∃ c, flag? (step s m) g = some c ∧ (c = true ↔ m.Poisons g s ∨ b = true ∧ m ≠ .clear g) := by
  cases m with
  | read w f => exact ⟨b, by simp only [step, store_read, hg], by simp [Move.Poisons]⟩
  | write w f =>
    by_cases poisons : (Move.write w f).Poisons g s
    · obtain ⟨p, e, hr, he⟩ := Move.poisons_write_iff.mp poisons
      have flag := flag?_setPoison (flag?_writer hg spares hr) true
      exact ⟨true, by simp only [step, store_write hr, settled, he, flag], iff_of_true rfl (.inl poisons)⟩
    · exact ⟨b, flag?_write hg spares poisons, by simp [poisons]⟩
  | clear h =>
    by_cases he : g = h
    · cases he
      exact ⟨false, flag?_setPoison hg false, by simp [Move.Poisons]⟩
    · exact ⟨b, (flag?_setPoison_ne he false).trans hg, by simp [Move.Poisons, Ne.symm he]⟩

theorem get?_step {m : Move α} (hr : (s.get? r).isSome) (apart : ¬m.Touches r s) :
    (step s m).get? r = s.get? r := by
  cases m with
  | read w f => simp only [step, store_read]
  | clear h => exact get?_setPoison apart
  | write w f =>
    by_cases hp : ∃ h p, w.RunsAt s h p
    · obtain ⟨h, p, hp⟩ := hp
      exact (writes_write w s f).elsewhere h p r hp hr (fun hc => apart ⟨h, p, hp, .inl hc⟩)
        (fun hc => apart ⟨h, p, hp, .inr (.inl hc)⟩) fun hc => apart ⟨h, p, hp, .inr (.inr hc)⟩
    · simp only [step, ((answers_write w s f).idle fun h p h' => hp ⟨h, p, h'⟩).2]

/-! ### Runs -/

/-- `P` holds of every move of a run, in the store it is made in. -/
def Along (P : Store → Move α → Prop) (s : Store) (ms : List (Move α)) : Prop :=
  ∀ before m after, ms = before ++ m :: after → P (run s before) m

section
variable {P : Store → Move α → Prop} {ms : List (Move α)} {m : Move α}

theorem run_concat (s : Store) (ms : List (Move α)) (m : Move α) : run s (ms ++ [m]) = step (run s ms) m := by
  simp only [run, List.foldl_append, List.foldl_cons, List.foldl_nil]

/-- A move of a run with a last move is the last, or one before it. -/
theorem eq_or_of_concat {β : Type} {xs before after : List β} {x y : β} (h : xs ++ [x] = before ++ y :: after) :
    before = xs ∧ y = x ∧ after = [] ∨ ∃ rest, after = rest ++ [x] ∧ xs = before ++ y :: rest := by
  rcases List.eq_nil_or_concat after with rfl | ⟨rest, z, rfl⟩
  · obtain ⟨rfl, hx⟩ := List.append_inj' h rfl
    cases hx
    exact .inl ⟨rfl, rfl, rfl⟩
  · rw [List.concat_eq_append] at h ⊢
    rw [← List.cons_append, ← List.append_assoc] at h
    obtain ⟨hxs, hx⟩ := List.append_inj' h rfl
    cases hx
    exact .inr ⟨rest, rfl, hxs⟩

theorem Along.init (h : Along P s (ms ++ [m])) : Along P s ms := fun before n after hms =>
  h before n (after ++ [m]) (by rw [hms, List.append_assoc, List.cons_append])

theorem Along.of_forall (h : ∀ m ∈ ms, ∀ t, P t m) : Along P s ms := fun before m _ hms =>
  h m (hms ▸ List.mem_append_right before List.mem_cons_self) _

theorem Along.last (h : Along P s (ms ++ [m])) : P (run s ms) m := h ms m [] rfl

/-- Since the poison of the guarded value at `g` was last cleared a writer broke off in it. -/
def Broken (g : Place) (s : Store) (ms : List (Move α)) : Prop :=
  ∃ before m after, ms = before ++ m :: after ∧ m.Poisons g (run s before) ∧ .clear g ∉ after

theorem broken_concat : Broken g s (ms ++ [m]) ↔ m.Poisons g (run s ms) ∨ Broken g s ms ∧ m ≠ .clear g := by
  constructor
  · rintro ⟨before, n, after, h, poisons, clear⟩
    rcases eq_or_of_concat h with ⟨rfl, rfl, -⟩ | ⟨rest, rfl, rfl⟩
    · exact .inl poisons
    · simp only [List.mem_append, List.mem_singleton, not_or] at clear
      exact .inr ⟨⟨before, n, rest, rfl, poisons, clear.1⟩, Ne.symm clear.2⟩
  · rintro (poisons | ⟨⟨before, n, rest, rfl, poisons, clear⟩, hm⟩)
    · exact ⟨ms, m, [], rfl, poisons, List.not_mem_nil⟩
    · refine ⟨before, n, rest ++ [m], by simp, poisons, ?_⟩
      simp [clear, Ne.symm hm]

/-- The flag of a guarded value tells its history. -/
theorem flag?_run (hg : flag? s g = some false) (spares : Along (Move.Spares g) s ms) :
    ∃ b, flag? (run s ms) g = some b ∧ (b = true ↔ Broken g s ms) := by
  -- By the last move: whether a writer broke off since the last clearing is decided from the end of a run.
  induction ms using List.reverseRecOn with
  | nil => exact ⟨false, hg, by simp [Broken]⟩
  | append_singleton ms m ih =>
    obtain ⟨b, hb, broken⟩ := ih spares.init
    obtain ⟨c, hc, poisoned⟩ := flag?_step hb spares.last
    exact ⟨c, by rw [run_concat, hc], by rw [poisoned, broken_concat, broken]⟩

theorem get?_run (hr : (s.get? r).isSome) (apart : Along (fun t m => ¬m.Touches r t) s ms) :
    (run s ms).get? r = s.get? r := by
  induction ms using List.reverseRecOn with
  | nil => rfl
  | append_singleton ms m ih =>
    have kept := ih apart.init
    rw [run_concat, get?_step (kept ▸ hr) apart.last, kept]

/-- A guarded value stays one through a run and is poisoned at its end exactly if a writer broke off in it since its
    poison was last cleared. Every access of the run answers as it should and leaves what it does not write, so
    that what is at a place none of them touches stays through the run. There is an access for every way to get to a
    guarded value and behind it. -/
theorem run_guarded (hg : s.get? g = some (.guarded false v)) (spares : Along (Move.Spares g) s ms) :
    ((inner? (run s ms) g).isSome ∧
      (poisoned (run s ms) g = true ↔
        ∃ before m after, ms = before ++ m :: after ∧ m.Poisons g (run s before) ∧ .clear g ∉ after)) ∧
    Along (fun t m => m.Obeys t) s ms ∧
    (∀ r, (s.get? r).isSome → Along (fun t m => ¬m.Touches r t) s ms → (run s ms).get? r = s.get? r) ∧
    ∀ use lock start inside, (∃ w : Way use, w.lock = lock ∧ w.start = start ∧ w.inside = inside) ↔
      start.Offered use ∧ inside.Offered use := by
  obtain ⟨b, hb, broken⟩ := flag?_run (flag?_of_get? hg) spares
  obtain ⟨v, hv⟩ := exists_get?_of_flag? hb
  refine ⟨⟨by simp only [inner?, hv, Option.isSome_some], ?_⟩, fun _ m _ _ => m.obeys _, fun r hr => get?_run hr,
    fun _ _ _ _ => Way.exists_iff⟩
  rw [poisoned_of_flag? hb, broken, Broken]

end

/-! ### An account that is overdrawn -/

/-- From a bank to the handle that owns its account. It lends the handle for reading only. -/
def toPrimary : Erased (.plain "w::Bank") (.wrap .shared (.wrap .mutexGuarded (.plain "w::Account"))) :=
  .of (.readable fun _ p => .done (Sample.primary p))

def toBalance : Erased (.plain "w::Account") (.plain "long") :=
  .of (.failableWritable fun _ p => .done (some (p.item 1)))

/-- Lowers a balance, and breaks off if there is too little. -/
def withdraw (amount : Int) : Writer Value := .onValue fun v =>
  match v with
  | .int n => if amount ≤ n then (.int (n - amount), .ok (.int (n - amount))) else (v, .error "overdrawn")
  | _ => (v, .error "no balance")

/-- A bank with an account, and a bank with none. -/
def banks : Store :=
  ⟨[.items [.shared 0], .items [.empty]], [.guarded false (.items [.text "bo", .int 10, .items []])], []⟩

/-- The way from a bank to the balance of its account. -/
def fromBank (bank : Place) : Way .write := ⟨.acquired, .root toPrimary bank, .path toBalance, rfl, rfl⟩

/-- Five are withdrawn through the bank, another five through the handle, and then twenty from the account, which is
    then looked at. From the bank with no account nothing can be withdrawn. -/
def overdraw : List (Move Value) :=
  [.write (fromBank (.slot 0)) (withdraw 5),
    .write ⟨.acquired, .handle (Sample.primary (.slot 0)), .path toBalance, rfl, rfl⟩ (withdraw 5),
    .write ⟨.acquired, .value (.cell 0), .path toBalance, rfl, rfl⟩ (withdraw 20),
    .write (fromBank (.slot 1)) (withdraw 1),
    .read ⟨.acquired, .value (.cell 0), .whole, rfl, rfl⟩ fun s p => .ok (s.value p)]

theorem spares_of_toBalance {w : Way .write} {f : Writer α} {c : Nat} (hw : w.inside = .path toBalance) :
    (Move.write w f).Spares (.cell c) s := by
  intro h p hr hc
  have found := hr.found
  rw [Way.Finds, hw] at found
  cases found with
  | path lends =>
    obtain ⟨_, ⟨⟩, ho⟩ := lends
    cases ho
    exact absurd hc (Place.not_covers_of_length (by simp [Place.cell, Place.item, Place.inside, Place.step]))

theorem spares_overdraw : Along (Move.Spares (.cell 0)) banks overdraw := .of_forall fun m hm t => by
  simp only [overdraw, List.mem_cons, List.not_mem_nil, or_false] at hm
  rcases hm with rfl | rfl | rfl | rfl | rfl
  · exact spares_of_toBalance rfl
  · exact spares_of_toBalance rfl
  · exact spares_of_toBalance rfl
  · exact spares_of_toBalance rfl
  · trivial

theorem run_guarded_overdraw :
    banks.get? (.cell 0) = some (.guarded false (.items [.text "bo", .int 10, .items []])) ∧
    Along (Move.Spares (.cell 0)) banks overdraw ∧ poisoned (run banks overdraw) (.cell 0) = true ∧
    (fromBank (.slot 0)).LeadsTo banks (.cell 0) ∧ (fromBank (.slot 1)).Reaches banks (.ok none) := by
  have history := (run_guarded (g := .cell 0) rfl spares_overdraw).1.2
  refine ⟨rfl, spares_overdraw, history.mpr ⟨overdraw.take 2, _, overdraw.drop 3, rfl, ?_, ?_⟩, ?_, ?_⟩
  · exact Move.poisons_write_iff.mpr ⟨_, _, ⟨.value _, rfl, rfl, .path ⟨_, rfl, rfl⟩⟩, rfl⟩
  · simp [overdraw]
  · exact .behind ⟨_, rfl, rfl⟩ (.owner rfl)
  · exact .behind ⟨_, rfl, rfl⟩ (.null nofun)

end Accessors.Guard
