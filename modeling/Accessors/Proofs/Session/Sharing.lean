import Accessors.Proofs.Session.Uses
import Accessors.Proofs.Ty.Handle

/-! # Copies of a shared handle

A session uses the accessors of one member or case, in any order and with any values, while further copies of
its handle are kept and dropped. No use changes what a kept copy points to, and a pointee is lent for writing
exactly if the handle is its only owner. -/

namespace Accessors

/-! ### Sites -/

/-- Where a handle may be: in a member of a record, or in a case of a union. -/
inductive Site where
  | member (m : Member)
  | unionCase (c : UnionCase)
deriving DecidableEq, Repr

namespace Site

/-- The declared type at a site. -/
def type : Site → Ty
  | member m => m.type
  | unionCase c => c.type

/-- The accessor of a flavor without a parameter that is declared at a site. -/
def accessor? (R : Ty) (f : Flavor) : Site → Option (Leg R)
  | member m => m.accessor? R f
  | unionCase c => c.caseAccessor? R f <|> c.unwrapAccessor? R f

/-- Where the value of a site is in the root, if the root has one. -/
def place? (s : Store) : Site → Option Place
  | member m => some (m.place Session.root)
  | unionCase c => c.extract s Session.root

/-- The value of a site is at a place: that of a member at its item of the root, that of a case inside the root while
    the case is active. -/
inductive Holds (s : Store) : Site → Place → Prop where
  | member (m : Member) : Holds s (member m) (Session.root.item m.index)
  | unionCase {c : UnionCase} {v : Value} (active : s.get? Session.root = some (.alternative c.index v)) :
      Holds s (unionCase c) Session.root.inside

variable {a : Site} {R V : Ty} {f : Flavor} {e : Erased R V}

theorem place?_eq_some_iff {s : Store} {p : Place} : a.place? s = some p ↔ a.Holds s p := by
  cases a with
  | member m =>
    constructor
    · rintro ⟨⟩
      exact .member m
    · rintro ⟨⟩
      rfl
  | unionCase c =>
    rw [place?, c.extract_eq_some]
    constructor
    · rintro ⟨rfl, v, active⟩
      exact .unionCase active
    · intro holds
      cases holds with
      | unionCase active => exact ⟨rfl, _, active⟩

theorem isolated (h : a.accessor? R f = some (.fixed e)) : e.Isolated := by
  cases a with
  | member m => exact Member.isolated h
  | unionCase c =>
    simp only [accessor?, Option.orElse_eq_orElse, Option.orElse_eq_or, Option.or_eq_some_iff] at h
    rcases h with h | ⟨-, h⟩
    · exact UnionCase.isolated_case h
    · exact UnionCase.isolated_unwrap h

theorem getMut_failableWritable (h : a.accessor? R .failableWritable = some (.fixed e)) (s : Store) :
    e.getMut s Session.root = .ok (.done ((a.place? s).bind (a.type.write s))) := by
  cases a with
  | member m =>
    simp only [accessor?, Member.accessor?] at h
    split at h
    · cases h
      rfl
    · cases h
  | unionCase c =>
    have hcase : c.caseAccessor? R .failableWritable = none := rfl
    simp only [accessor?, hcase, Option.orElse_eq_orElse, Option.orElse_eq_or, Option.none_or,
      UnionCase.unwrapAccessor?] at h
    split at h
    · cases h
      rfl
    · cases h

end Site

/-! ### Runs -/

namespace Session

/-- One thing done in a session: an accessor of the site is used, with any value and with the root moved in or
    copied; a further copy of what is at a place is kept, or any one of the kept copies is dropped. In
    between new cells may be made for values to come, the root may be replaced by another one, and the
    outside owners may let go. -/
inductive Move where
  | read (f : Flavor)
  | write (f : Flavor) (v : Value)
  | take (f : Flavor) (moved : Bool)
  | embed (f : Flavor) (v : Value)
  | keep (p : Place)
  | drop (k : Nat)
  | alloc (v : Value)
  | replace (v : Value)
  | expire
deriving DecidableEq, Repr

/-- What a use leaves behind; a use that is refused or breaks off leaves the session as it was. -/
def settleUse (s : Store) (use : Except Unsupported (Run Store)) : Store :=
  match use with
  | .ok r => r.outcome.toOption.getD s
  | .error _ => s

/-- The session after a use of a declared accessor. There is no use of one that is not declared. -/
def useOf {R : Ty} (s : Store) (l : Option (Leg R))
    (use : {V : Ty} → Erased R V → Except Unsupported (Run Store)) : Store :=
  match l with
  | some (.fixed e) => settleUse s (use e)
  | _ => s

/-- The session after a move at a site. Reading leaves no trace. -/
def step (a : Site) (R : Ty) (s : Store) : Move → Store
  | .read _ => s
  | .write f v => useOf s (a.accessor? R f) fun e => (write e (some v) s).map (·.map Prod.fst)
  | .take f moved => useOf s (a.accessor? R f) fun e => (take e moved s).map (·.map Prod.fst)
  | .embed f v => useOf s (a.accessor? R f) fun e => embed e v s
  | .keep p => keep s p
  | .drop k => { s with slots := s.slots.take 1 ++ (kept s).eraseIdx k }
  | .alloc v => (s.alloc v).1
  | .replace v => s.set root v
  | .expire => expire s

/-- The session after some moves. -/
def run (a : Site) (R : Ty) (s : Store) (ms : List Move) : Store := ms.foldl (step a R) s

/-- The kept copies after a move. -/
def keptAfter (s : Store) : Move → List Value
  | .keep p => kept s ++ [s.value p]
  | .drop k => (kept s).eraseIdx k
  | _ => kept s

section
variable {a : Site} {R V : Ty} {s t : Store} {m : Move} {v u : Value}

theorem kept_eq_of_confined (h : Store.ConfinedTo 0 s t) : kept t = kept s := by
  refine List.ext_getElem? fun i => ?_
  simp only [kept, List.getElem?_drop]
  exact h.others (1 + i) (by omega)

theorem confined_useOf {l : Option (Leg R)} {use : {V : Ty} → Erased R V → Except Unsupported (Run Store)}
    (h : ∀ {V : Ty} {e : Erased R V}, l = some (.fixed e) → ∀ r, use e = .ok r →
      ∀ t, r.outcome = .ok t → Store.ConfinedTo 0 s t) : Store.ConfinedTo 0 s (useOf s l use) := by
  unfold useOf
  split
  · rename_i V e
    unfold settleUse
    split
    · rename_i r hr
      cases ho : r.outcome with
      | error _ => exact .refl 0 s
      | ok t => exact h rfl r hr t ho
    · exact .refl 0 s
  · exact .refl 0 s

theorem outcome_map {α β : Type} {r : Run α} {g : α → β} {b : β} (h : (r.map g).outcome = .ok b) :
    ∃ x, r.outcome = .ok x ∧ b = g x := by
  obtain ⟨calls, outcome⟩ := r
  cases outcome with
  | error _ => cases h
  | ok x => exact ⟨x, rfl, (Except.ok.inj h).symm⟩

theorem map_eq_ok {ε α β : Type} {x : Except ε α} {g : α → β} {b : β} (h : x.map g = .ok b) :
    ∃ y, x = .ok y ∧ b = g y := by
  cases x with
  | error _ => cases h
  | ok y => exact ⟨y, rfl, (Except.ok.inj h).symm⟩

theorem write_confined {e : Erased R V} (he : e.Isolated) {r : Run Store}
    (hr : (write e (some v) s).map (·.map Prod.fst) = .ok r) (ho : r.outcome = .ok t) :
    Store.ConfinedTo 0 s t := by
  obtain ⟨r₁, hw, rfl⟩ := map_eq_ok hr
  obtain ⟨x, hx, rfl⟩ := outcome_map ho
  obtain ⟨r₂, hget, rfl⟩ := map_eq_ok hw
  obtain ⟨o, hq, rfl⟩ := outcome_map hx
  cases o with
  | none => exact .refl 0 s
  | some q => exact (he.lent hget hq .slot).set_confined v

theorem take_confined {e : Erased R V} (he : e.Isolated) {moved : Bool} {r : Run Store}
    (hr : (take e moved s).map (·.map Prod.fst) = .ok r) (ho : r.outcome = .ok t) :
    Store.ConfinedTo 0 s t := by
  obtain ⟨r₁, htake, rfl⟩ := map_eq_ok hr
  obtain ⟨x, hx, rfl⟩ := outcome_map ho
  have given : Store.ConfinedTo 0 s (give moved s).1 := by
    cases moved with
    | false => exact .refl 0 s
    | true => exact Store.Exclusive.set_confined (p := root) .slot .moved
  exact given.trans (he.taken htake hx 0)

/-- A move other than keeping and dropping copies changes only what the root owns alone, apart from new cells. -/
theorem step_confined (hm : ∀ p, m ≠ .keep p) (hm' : ∀ k, m ≠ .drop k) : Store.ConfinedTo 0 s (step a R s m) := by
  cases m with
  | read f => exact .refl 0 s
  | write f v => exact confined_useOf fun he r hr t ho => write_confined (Site.isolated he) hr ho
  | take f moved => exact confined_useOf fun he r hr t ho => take_confined (Site.isolated he) hr ho
  | embed f v =>
    refine confined_useOf fun he r hr t ho => ?_
    obtain ⟨r₁, -, rfl⟩ := map_eq_ok hr
    obtain ⟨x, -, rfl⟩ := outcome_map ho
    exact Store.Exclusive.set_confined (p := root) .slot x
  | keep p => exact absurd rfl (hm p)
  | drop k => exact absurd rfl (hm' k)
  | alloc v =>
    refine ⟨rfl, fun _ _ => rfl, fun j w _ _ c u _ hc => ?_⟩
    have := (List.getElem?_eq_some_iff.mp hc).1
    simp only [step, Store.alloc]
    rw [List.getElem?_append_left this, hc]
  | replace v => exact Store.Exclusive.set_confined (p := root) .slot v
  | expire => exact ⟨rfl, fun _ _ => rfl, fun _ _ _ _ => .refl _ _⟩

theorem step_slots_ne_nil (h : s.slots ≠ []) (m : Move) : (step a R s m).slots ≠ [] := by
  by_cases hk : ∃ p, m = .keep p
  · obtain ⟨p, rfl⟩ := hk
    simp [step, keep, Store.push]
  · by_cases hd : ∃ k, m = .drop k
    · obtain ⟨k, rfl⟩ := hd
      simp [step, h]
    · have := (step_confined (a := a) (R := R) (s := s) (fun p hp => hk ⟨p, hp⟩) fun k hk => hd ⟨k, hk⟩).length
      intro hnil
      rw [hnil] at this
      exact h (List.eq_nil_of_length_eq_zero this.symm)

theorem run_slots_ne_nil (h : s.slots ≠ []) (ms : List Move) : (run a R s ms).slots ≠ [] := by
  induction ms generalizing s with
  | nil => exact h
  | cons m ms ih => exact ih (step_slots_ne_nil h m)

theorem kept_step (h : s.slots ≠ []) (m : Move) : kept (step a R s m) = keptAfter s m := by
  by_cases hk : ∃ p, m = .keep p
  · obtain ⟨p, rfl⟩ := hk
    have := List.length_pos_iff.mpr h
    exact List.drop_append_of_le_length this
  · by_cases hd : ∃ k, m = .drop k
    · obtain ⟨k, rfl⟩ := hd
      have := List.length_pos_iff.mpr h
      simp only [step, kept, keptAfter]
      rw [List.drop_append_of_le_length (by simp; omega)]
      simp
    · rw [kept_eq_of_confined (step_confined (fun p hp => hk ⟨p, hp⟩) fun k hk => hd ⟨k, hk⟩)]
      cases m with
      | keep p => exact absurd ⟨p, rfl⟩ hk
      | drop k => exact absurd ⟨k, rfl⟩ hd
      | _ => rfl

theorem samePointee_step (hv : v ∈ kept s) (m : Move) : Store.SamePointee v s.cells (step a R s m).cells := by
  obtain ⟨i, hi⟩ := List.getElem?_of_mem hv
  rw [kept, List.getElem?_drop] at hi
  cases m with
  | keep p => exact .refl _ _
  | drop k => exact .refl _ _
  | _ => exact (step_confined (by simp) (by simp)).pointees (1 + i) v (by omega) hi

/-- Some moves change nothing that a copy points to which is kept all the time. -/
theorem samePointee_run (ms : List Move) (hv : ∀ before, before <+: ms → v ∈ kept (run a R s before)) :
    Store.SamePointee v s.cells (run a R s ms).cells := by
  induction ms generalizing s with
  | nil => exact .refl _ _
  | cons m ms ih =>
    have now : v ∈ kept s := hv [] (List.nil_prefix)
    refine (samePointee_step now m).trans (ih fun before hb => ?_)
    exact hv (m :: before) (List.cons_prefix_cons.mpr ⟨rfl, hb⟩)

end

/-! ### Copies are apart -/

/-- What holds of a session at a site with a handle: only keeping and dropping changes which copies are kept,
    nothing that happens from here on changes what a copy points to as long as it is kept, and the accessor
    that writes the pointee finds it exactly if the handle is its one live owner. -/
structure CopiesApart (a : Site) (R : Ty) (s : Store) : Prop where
  kept : ∀ m, kept (step a R s m) = keptAfter s m
  pointees : ∀ u after, (∀ ms, ms <+: after → u ∈ Session.kept (run a R s ms)) →
    Store.SamePointee u s.cells (run a R s after).cells
  found : ∀ {V : Ty} (e : Erased R V), a.accessor? R .failableWritable = some (.fixed e) →
    ∃ target, e.getMut s root = .ok (.done target) ∧
      (target.isSome = true ↔ ∃ p c, a.Holds s p ∧ a.type.OwnsAt s p c ∧ a.type.PointeeEngaged s c ∧
        s.liveOwners c = 1)

/-- Copies of a shared handle stay apart, whatever the root is and whatever was done before. -/
theorem run_copiesApart (a : Site) (R : Ty) (h : a.type.traits.shape.involvesSharing = true) (v : Value)
    (s₀ : Store) (before : List Move) : CopiesApart a R (run a R (start v s₀) before) where
  kept := kept_step (run_slots_ne_nil (List.cons_ne_nil _ _) before)
  pointees _ after hu := samePointee_run after hu
  found e he := by
    refine ⟨_, Site.getMut_failableWritable he _, ?_⟩
    simp only [← Site.place?_eq_some_iff]
    cases hp : a.place? (run a R (start v s₀) before) with
    | none => simp
    | some p =>
      rw [Option.bind_some, Ty.write_isSome_iff h]
      constructor
      · rintro ⟨c, hc⟩
        exact ⟨p, c, rfl, hc⟩
      · rintro ⟨_, c, hq, hc⟩
        cases hq
        exact ⟨c, hc⟩

/-- A copy of a handle is kept, the handle is used, and the copy is dropped again, in a member and in a case. -/
theorem run_copiesApart_count :
    ((Site.member ⟨"count", 0, .wrap .localShared (.plain "int"), .all⟩).type.traits.shape.involvesSharing = true ∧
      CopiesApart (.member ⟨"count", 0, .wrap .localShared (.plain "int"), .all⟩) (.plain "w::Shop")
        (run (.member ⟨"count", 0, .wrap .localShared (.plain "int"), .all⟩) (.plain "w::Shop")
          (start (.items [.shared 0]) ⟨[], [.int 1], []⟩)
          [.keep (root.item 0), .write .failableWritable (.int 2), .take .failableOwned false, .drop 0,
            .write .failableWritable (.int 3)])) ∧
    (Site.unionCase ⟨"stock", 1, .single (.wrap .shared (.plain "int")), .all⟩).type.traits.shape.involvesSharing = true ∧
      CopiesApart (.unionCase ⟨"stock", 1, .single (.wrap .shared (.plain "int")), .all⟩) (.plain "w::State")
        (run (.unionCase ⟨"stock", 1, .single (.wrap .shared (.plain "int")), .all⟩) (.plain "w::State")
          (start (.alternative 1 (.shared 0)) ⟨[], [.int 1], []⟩)
          [.keep root.inside, .write .failableWritable (.int 2), .take .failableOwned true, .drop 0,
            .replace (.alternative 0 (.int 4)), .replace (.alternative 1 (.shared 0)),
            .write .failableWritable (.int 3)]) :=
  ⟨⟨by decide, run_copiesApart (.member ⟨"count", 0, .wrap .localShared (.plain "int"), .all⟩) (.plain "w::Shop")
      (by decide) (.items [.shared 0]) ⟨[], [.int 1], []⟩ _⟩,
    by decide, run_copiesApart (.unionCase ⟨"stock", 1, .single (.wrap .shared (.plain "int")), .all⟩)
      (.plain "w::State") (by decide) (.alternative 1 (.shared 0)) ⟨[], [.int 1], []⟩ _⟩

end Session
end Accessors
