import Accessors.Proofs.Session.Sharing
import Accessors.Proofs.Ty.Found

/-! # Taking and reading

Where a site has both accessors to its unwrapped value, the owning one takes out of the root, or out of a copy of
it, what the reading one finds in it. It makes no difference whether the root is moved in or copied and how many
owners a pointee has. Only of a hash set with several elements both find any element. -/

namespace Accessors

/-! ### Values at a site -/

namespace Ty
variable {t : Ty} {cells : List Value} {v : Value}

theorem found_of_hashSet (h : t.wrapper? = some .hashSet) : t.found cells v = v.list[0]? := by
  cases t with
  | plain n => cases h
  | wrap w t =>
    cases h
    have merged : (wrap .hashSet t).mergedPair? = none :=
      mergedPair?_of_not_merged (congrArg Traits.merged (traits_of_combine_eq_none rfl))
    simp only [found, passage, merged, Passage.found, Option.bind_fun_some, Wrapper.found]

end Ty

namespace Site
variable {a : Site} {R V : Ty} {e : Erased R V} {s t : Store} {p q : Place} {v : Value}

/-- Where the value of a site is in a root, if the root has one. -/
def placeIn? (s : Store) (p : Place) : Site → Option Place
  | member m => some (m.place p)
  | unionCase c => c.extract s p

/-- The value of a site in a root, if the root has one. -/
def part? (v : Value) : Site → Option Value
  | member m => some ((v.child? (.item m.index)).getD .moved)
  | unionCase c => c.part? v

theorem place?_eq (a : Site) (s : Store) : a.place? s = a.placeIn? s Session.root := by
  cases a <;> rfl

theorem map_value_placeIn? (a : Site) (s : Store) (p : Place) :
    (a.placeIn? s p).map s.value = a.part? (s.value p) := by
  cases a with
  | member m => exact congrArg some (s.value_step p _)
  | unionCase c => exact c.map_value_extract s p

/-- The items that are in a root are at a place of the store. -/
theorem exists_items (part : a.part? (s.value p) = some v) : ∃ q, a.placeIn? s p = some q ∧ s.items q = v.list := by
  rw [← map_value_placeIn?, Option.map_eq_some_iff] at part
  obtain ⟨q, hq, rfl⟩ := part
  exact ⟨q, hq, s.items_eq q⟩

theorem base_of_placeIn? (h : a.placeIn? s p = some q) : q.base = p.base := by
  cases a with
  | member m =>
    cases h
    rfl
  | unionCase c => exact c.base_of_extract s p h

theorem placeIn?_set (h : a.placeIn? s p = some q) (v : Value) : a.placeIn? (s.set q v) p = some q := by
  cases a with
  | member m => exact h
  | unionCase c =>
    have inside : q = p.inside := c.eq_inside_of_extract s _ h
    have alike : s.Alike (s.set q v) p := Store.alike_set (inside ▸ Place.not_covers_of_length (by simp))
    exact (UnionCase.extract_congr alike).symm.trans h

/-! ### What is declared -/

theorem get_failableReadable (h : a.accessor? R .failableReadable = some (.fixed e)) (s : Store) (p : Place) :
    e.get s p = .ok (.done ((a.placeIn? s p).bind (a.type.read s))) := by
  cases a with
  | member m =>
    simp only [accessor?, Member.accessor?] at h
    split at h
    · cases h
      rfl
    · cases h
  | unionCase c =>
    have hcase : c.caseAccessor? R .failableReadable = none := rfl
    simp only [accessor?, hcase, Option.orElse_eq_orElse, Option.orElse_eq_or, Option.none_or,
      UnionCase.unwrapAccessor?] at h
    split at h
    · cases h
      rfl
    · cases h

/-- The value at a site, taken away. -/
def takeIn (a : Site) (s : Store) (p : Place) : Store × Option Value :=
  match a.placeIn? s p with
  | some q => a.type.take s q
  | none => (s, none)

theorem getOwned_failableOwned (h : a.accessor? R .failableOwned = some (.fixed e)) (s : Store) (v : Value) :
    e.getOwned s v = .ok (.done (inVariable s v a.takeIn)) ∧ a.type.traits.shape.sharedGuard = false := by
  cases a with
  | member m =>
    simp only [accessor?, Member.accessor?] at h
    split at h
    · rename_i offers
      cases h
      exact ⟨rfl, Ty.not_sharedGuard_of_offered (Bool.and_eq_true_iff.mp offers).1⟩
    · cases h
  | unionCase c =>
    have hcase : c.caseAccessor? R .failableOwned = none := rfl
    simp only [accessor?, hcase, Option.orElse_eq_orElse, Option.orElse_eq_or, Option.none_or,
      UnionCase.unwrapAccessor?] at h
    split at h
    · rename_i offers
      cases h
      simp only [UnionCase.offersUnwrap, Bool.and_eq_true] at offers
      exact ⟨rfl, Ty.not_sharedGuard_of_offered offers.1.2⟩
    · cases h

end Site

/-! ### Uses -/

namespace Session
variable {a : Site} {R V W : Ty} {er : Erased R V} {eo : Erased R W} {s t : Store} {p : Place} {v : Value}
  {vs ws : List Value}

/-- Which element of a hash set at a site comes first is not known, unless it is the only one. -/
def firstUnknown (a : Site) (s : Store) : Bool := (a.place? s).any (a.type.firstUnknown s)

/-- A session whose root is the same, or is a copy: a hash set at the site may have its elements in another order. -/
inductive Relists (a : Site) (s : Store) : Store → Prop
  | same : Relists a s s
  | reordered {p : Place} {vs ws : List Value} (hash : a.type.wrapper? = some .hashSet) (place : a.place? s = some p)
      (items : s.get? p = some (.items vs)) (perm : ws.Perm vs) : Relists a s (s.set p (.items ws))

/-- What is taken out of a root agrees with what is found in it. -/
structure TakenAsRead (a : Site) (s : Store) (found taken : Option Value) (after : Store) : Prop where
  isSome : taken.isSome = found.isSome
  same : firstUnknown a s = false → taken = found
  /-- Of a hash set with several elements any one is found, and any one is taken. -/
  elements : firstUnknown a s = true → ∀ v, found = some v ∨ taken = some v →
    ∃ p, a.place? s = some p ∧ v ∈ s.items p
  /-- What the taken value points to is as it was. -/
  pointees : ∀ v, taken = some v → Store.SamePointee v s.cells after.cells

theorem read_eq (h : a.accessor? R .failableReadable = some (.fixed er)) (s : Store) :
    read er s = .ok (.done ((a.part? (s.value root)).bind (a.type.found s.cells))) := by
  rw [read, Site.get_failableReadable h, ← Site.map_value_placeIn?]
  cases a.placeIn? s root with
  | none => rfl
  | some p =>
    have same := a.type.map_value_read s p
    simp only [Option.bind_some, Option.map_some, ← same]
    rfl

theorem cells_give (moved : Bool) (s : Store) : (give moved s).1.cells = s.cells := by
  cases moved with
  | false => rfl
  | true => exact Store.cells_set_of_slot (p := root) rfl _

theorem snd_give (moved : Bool) (s : Store) : (give moved s).2 = s.value root := by
  cases moved <;> rfl

theorem took_in (reachable : a.type.traits.shape.sharedGuard = false) (s : Store) (v : Value) :
    s.Took (inVariable s v a.takeIn) ((a.part? v).bind (a.type.found s.cells)) := by
  have part := a.map_value_placeIn? (s.push v).1 (s.push v).2
  rw [s.value_push] at part
  have takes : inVariable s v a.takeIn =
      ((a.takeIn (s.push v).1 (s.push v).2).1.pop, (a.takeIn (s.push v).1 (s.push v).2).2) := rfl
  rw [takes, ← part, Site.takeIn]
  cases hq : a.placeIn? (s.push v).1 (s.push v).2 with
  | none => exact ⟨rfl, fun u hu => nomatch hu⟩
  | some q =>
    have base : q.base = .slot s.slots.length := Site.base_of_placeIn? hq
    obtain ⟨found, pointees⟩ := Ty.took (s := (s.push v).1) base reachable
    exact ⟨found, pointees⟩

theorem take_eq (h : a.accessor? R .failableOwned = some (.fixed eo)) (moved : Bool) (s : Store) :
    ∃ after, take eo moved s = .ok (.done after) ∧
      s.Took after ((a.part? (s.value root)).bind (a.type.found s.cells)) := by
  obtain ⟨takes, reachable⟩ := Site.getOwned_failableOwned h (give moved s).1 (s.value root)
  have took := took_in reachable (give moved s).1 (s.value root)
  rw [cells_give] at took
  exact ⟨_, by rw [take, snd_give, takes], took.of_cells (cells_give moved s)⟩

/-- A root whose hash set is in another order has the same cells, and the same value at the site but for that order. -/
theorem Relists.cases (h : Relists a s t) : t.cells = s.cells ∧
    (a.part? (t.value root) = a.part? (s.value root) ∨ a.type.wrapper? = some .hashSet ∧ ∃ vs ws,
      a.part? (s.value root) = some (.items vs) ∧ a.part? (t.value root) = some (.items ws) ∧ ws.Perm vs) := by
  cases h with
  | same => exact ⟨rfl, .inl rfl⟩
  | @reordered p vs ws hash place items perm =>
    have base : p.base = .slot 0 := Site.base_of_placeIn? (a.place?_eq s ▸ place)
    refine ⟨Store.cells_set_of_slot base _, .inr ⟨hash, vs, ws, ?_, ?_, perm⟩⟩
    · rw [← Site.map_value_placeIn?, ← Site.place?_eq, place, Option.map_some, Store.value_eq items]
    · rw [← Site.map_value_placeIn?, Site.placeIn?_set (a.place?_eq s ▸ place), Option.map_some,
        Store.value_eq (Store.get?_set items)]

theorem items_of_part? (part : a.part? (s.value root) = some v) : ∃ p, a.place? s = some p ∧ s.items p = v.list :=
  a.place?_eq s ▸ Site.exists_items part

theorem firstUnknown_eq (hash : a.type.wrapper? = some .hashSet) (part : a.part? (s.value root) = some v) :
    firstUnknown a s = decide (1 < v.list.length) := by
  obtain ⟨p, hp, items⟩ := items_of_part? part
  rw [firstUnknown, hp, Option.any_some, ← items]
  generalize a.type = t at hash
  cases t with
  | plain n => cases hash
  | wrap w t =>
    cases hash
    rfl

theorem hashSet_of_firstUnknown (h : firstUnknown a s = true) : a.type.wrapper? = some .hashSet := by
  rw [firstUnknown, Option.any_eq_true] at h
  obtain ⟨p, -, unknown⟩ := h
  unfold Ty.firstUnknown at unknown
  split at unknown
  · rename_i ht
    rw [ht]
    rfl
  · cases unknown

/-- What is found of a hash set is one of its elements. -/
theorem mem_of_found (hash : a.type.wrapper? = some .hashSet)
    (h : (a.part? (s.value root)).bind (a.type.found s.cells) = some u) :
    ∃ p, a.place? s = some p ∧ u ∈ s.items p := by
  obtain ⟨v, part, found⟩ := Option.bind_eq_some_iff.mp h
  rw [Ty.found_of_hashSet hash] at found
  obtain ⟨p, hp, items⟩ := items_of_part? part
  exact ⟨p, hp, items ▸ List.mem_of_getElem? found⟩

theorem eq_of_perm_of_length (perm : ws.Perm vs) (few : ¬1 < vs.length) : ws = vs := by
  cases vs with
  | nil => exact perm.eq_nil
  | cons v vs =>
    have : vs.length = 0 := by simpa using few
    cases List.eq_nil_of_length_eq_zero this
    exact List.perm_singleton.mp perm

/-- What the owning accessor of a site takes out of the root, moved in or copied, is what the reading one finds. -/
theorem take_agrees (hr : a.accessor? R .failableReadable = some (.fixed er))
    (ho : a.accessor? R .failableOwned = some (.fixed eo)) (given : Relists a s t) (moved : Bool) :
    ∃ found taken after, read er s = .ok (.done found) ∧ take eo moved t = .ok (.done (after, taken)) ∧
      TakenAsRead a s found taken after := by
  obtain ⟨⟨after, taken⟩, takes, taken_eq, pointees⟩ := take_eq ho moved t
  obtain ⟨cells, part⟩ := given.cases
  rw [cells] at taken_eq pointees
  rw [← taken_eq] at pointees
  refine ⟨_, taken, after, read_eq hr s, takes, ?_⟩
  simp only at taken_eq
  rcases part with part | ⟨hash, vs, ws, hs, ht, perm⟩
  · rw [part] at taken_eq
    refine ⟨by rw [taken_eq], fun _ => taken_eq, fun unknown v hv => ?_, pointees⟩
    have hash := hashSet_of_firstUnknown unknown
    exact mem_of_found hash (hv.elim id fun hv => taken_eq.symm.trans hv)
  · rw [ht, Option.bind_some, Ty.found_of_hashSet hash] at taken_eq
    have found_eq : (a.part? (s.value root)).bind (a.type.found s.cells) = vs[0]? := by
      rw [hs, Option.bind_some, Ty.found_of_hashSet hash]
      rfl
    have taken_eq : taken = ws[0]? := taken_eq
    refine ⟨?_, fun known => ?_, fun _ v hv => ?_, pointees⟩
    · rw [taken_eq, found_eq, Bool.eq_iff_iff, isSome_getElem?, isSome_getElem?, perm.length_eq]
    · rw [firstUnknown_eq hash hs, decide_eq_false_iff_not] at known
      rw [taken_eq, found_eq, eq_of_perm_of_length perm known]
    · rcases hv with hv | hv
      · exact mem_of_found hash hv
      · obtain ⟨p, hp, items⟩ := items_of_part? hs
        rw [taken_eq] at hv
        exact ⟨p, hp, items ▸ perm.mem_iff.mp (List.mem_of_getElem? hv)⟩

/-- Of a set of two elements the first is read, and out of a copy in the other order the second is taken. -/
theorem take_agrees_tags : ∃ s t : Store,
    Relists (.member ⟨"tags", 0, .wrap .hashSet (.plain "int"), .all⟩) s t ∧
      ∃ found taken after,
        read (.of (Member.fr ⟨"tags", 0, .wrap .hashSet (.plain "int"), .all⟩ (.plain "w::Shop"))) s =
          .ok (.done found) ∧
        take (.of (Member.fo ⟨"tags", 0, .wrap .hashSet (.plain "int"), .all⟩ (.plain "w::Shop"))) false t =
          .ok (.done (after, taken)) ∧
        TakenAsRead (.member ⟨"tags", 0, .wrap .hashSet (.plain "int"), .all⟩) s found taken after := by
  let s : Store := ⟨[.items [.items [.int 1, .int 2]]], [], []⟩
  have swapped : Relists (.member ⟨"tags", 0, .wrap .hashSet (.plain "int"), .all⟩) s
      (s.set (root.item 0) (.items [.int 2, .int 1])) := .reordered rfl rfl rfl (.swap _ _ _)
  exact ⟨s, _, swapped, take_agrees (R := .plain "w::Shop") rfl rfl swapped false⟩

end Session
end Accessors
