import Accessors.Proofs.Accessor.Compose
import Accessors.UnionCase
import Accessors.Wrapper.Paths

/-! # Legs made failable

A leg made failable finds what it found before, and the accessor behind it then tests what was found. Two accessors
made failable and then joined are the same accessor as the two joined and then made failable. So where a total leg
comes first, it makes no difference to any result that what it found is not tested. -/

namespace Accessors

namespace Run
variable {α β : Type}

theorem map_injective {f : α → β} (hf : Function.Injective f) {x y : Run α} (h : x.map f = y.map f) : x = y := by
  obtain ⟨calls, outcome⟩ := x
  obtain ⟨calls', outcome'⟩ := y
  simp only [map_eq, mk.injEq] at h
  obtain ⟨rfl, h⟩ := h
  cases outcome <;> cases outcome' <;> simp_all [Except.map, hf.eq_iff]

end Run

theorem Found.toOption_injective {α : Type} :
    (s : Bool) → Function.Injective (Found.toOption : Found s α → Option α)
  | true, _, _, h => Option.some.inj h
  | false, _, _, h => h

namespace Flavor
variable {f g k : Flavor}

theorem family_failableOf : f.failableOf.family = f.family := by
  cases f <;> rfl

theorem owns_failableOf : f.failableOf.owns = f.owns := by
  cases f <;> rfl

theorem writes_failableOf : f.failableOf.writes = f.writes := by
  cases f <;> rfl

/-- A writable case reads too, but made failable it only writes. -/
theorem reads_failableOf (hw : f.writes = false) : f.failableOf.reads = f.reads := by
  cases f <;> first | rfl | cases hw

/-- Failable flavors compose where the flavors themselves do, to the failable flavor of the same family. -/
theorem compose_failableOf (h : f.compose g = some k) : f.failableOf.compose g.failableOf = some k.failableOf := by
  have leads := isSome_compose.mp (Option.isSome_iff_exists.mpr ⟨k, h⟩)
  rw [← family_failableOf, ← family_failableOf (f := g)] at leads
  obtain ⟨l, hl⟩ := Option.isSome_iff_exists.mp (isSome_compose.mpr leads)
  have family : l.family = k.failableOf.family := by
    rw [family_of_compose hl, family_failableOf, family_failableOf, family_of_compose h]
  have total : l.total = k.failableOf.total := by
    rw [← total_of_compose hl, total_failableOf, total_failableOf, Bool.false_and, total_failableOf]
  rw [hl, eq_of_family (not_isCase_of_compose hl) not_isCase_failableOf family total]

end Flavor

namespace Accessor
variable {f g k : Flavor} {R M V : Ty}

/-- An accessor that is no case accessor is known by what it finds. -/
theorem eq_of_finds {a b : Accessor f R V} (noCase : f.isCase = false)
    (find : ∀ h s p, a.find h s p = b.find h s p) (findMut : ∀ h s p, a.findMut h s p = b.findMut h s p)
    (findOwned : ∀ h s v, a.findOwned h s v = b.findOwned h s v) : a = b := by
  have read : a.read = b.read := funext fun h => funext fun s => funext fun p =>
    Run.map_injective (Found.toOption_injective _) (find h s p)
  have write : a.write = b.write := funext fun h => funext fun s => funext fun p =>
    Run.map_injective (Found.toOption_injective _) (findMut h s p)
  have take : a.take = b.take := funext fun h => funext fun s => funext fun v => by
    refine Run.map_injective (fun x y hxy => ?_) (findOwned h s v)
    exact Prod.ext (Prod.mk.inj hxy).1 (Found.toOption_injective _ (Prod.mk.inj hxy).2)
  have embed : a.embed = b.embed := funext fun h => by
    rw [noCase] at h
    cases h
  obtain ⟨_, _, _, _⟩ := a
  cases read
  cases write
  cases take
  cases embed
  rfl

/-! ### One leg -/

section
variable (a : Accessor f R V) (s : Store)

theorem find_toFailable (h : f.failableOf.reads = true) (p : Place) :
    a.toFailable.find h s p = a.find (Flavor.reads_of_failableOf h) s p :=
  Found.map_toOption_cast _ _

theorem findMut_toFailable (h : f.failableOf.writes = true) (p : Place) :
    a.toFailable.findMut h s p = a.findMut (Flavor.writes_of_failableOf h) s p :=
  Found.map_toOption_cast _ _

theorem findOwned_toFailable (h : f.failableOf.owns = true) (v : Value) :
    a.toFailable.findOwned h s v = a.findOwned (Flavor.owns_of_failableOf h) s v := by
  simp only [findOwned, toFailable, Run.map_map, Found.toOption_cast_option]

/-- Whatever its kind, a leg made failable makes the same of a value that it is handed. -/
theorem handOn_toFailable (m : Value) : a.toFailable.handOn s m = a.handOn s m := by
  by_cases ho : f.owns = true
  · rw [handOn_of_owns _ (Flavor.owns_failableOf.trans ho), handOn_of_owns _ ho, findOwned_toFailable]
  · by_cases hw : f.writes = true
    · rw [handOn_of_writes _ (Flavor.writes_failableOf.trans hw), handOn_of_writes _ hw, findMut_toFailable]
    · have hr : f.reads = true := Flavor.reads_of_not_owns_of_not_writes ho hw
      have hw : f.writes = false := Bool.not_eq_true _ ▸ hw
      rw [handOn_of_reads _ ((Flavor.reads_failableOf hw).trans hr) (Flavor.writes_failableOf.trans hw),
        handOn_of_reads _ hr hw, find_toFailable]

end

/-! ### Two legs joined -/

/-- Two accessors find the same wherever both are used in the same way. -/
structure FindsAs (a : Accessor f R V) (b : Accessor g R V) : Prop where
  find : ∀ h h' s p, a.find h s p = b.find h' s p
  findMut : ∀ h h' s p, a.findMut h s p = b.findMut h' s p
  findOwned : ∀ h h' s v, a.findOwned h s v = b.findOwned h' s v

/-- Two accessors joined find what they find that are made failable first, so that each result is tested. -/
theorem findsAs_compose_toFailable (a : Accessor f R M) (b : Accessor g M V) (h : f.compose g = some k)
    (h' : f.failableOf.compose g.failableOf = some k.failableOf) :
    (a.compose b h).FindsAs (a.toFailable.compose b.toFailable h') where
  find _ _ s p := by
    rw [find_compose, find_compose, find_toFailable]
    refine congrArg _ (funext fun m => ?_)
    cases m with
    | none => rfl
    | some q => exact (b.find_toFailable s _ q).symm
  findMut _ _ s p := by
    rw [findMut_compose, findMut_compose, findMut_toFailable]
    refine congrArg _ (funext fun m => ?_)
    cases m with
    | none => rfl
    | some q => exact (b.findMut_toFailable s _ q).symm
  findOwned _ _ s v := by
    rw [findOwned_compose, findOwned_compose, findOwned_toFailable]
    refine congrArg _ (funext fun ⟨t, m⟩ => ?_)
    cases m with
    | none => rfl
    | some m => exact (b.handOn_toFailable t m).symm

/-- Two accessors that can be joined can be joined when they are made failable. That gives the same accessor as joining
    them and making the result failable, and it finds what they find when they are joined as they are. -/
theorem compose_toFailable (a : Accessor f R M) (b : Accessor g M V) (h : f.compose g = some k) :
    ∃ h' : f.failableOf.compose g.failableOf = some k.failableOf,
      a.toFailable.compose b.toFailable h' = (a.compose b h).toFailable ∧
      (a.compose b h).FindsAs (a.toFailable.compose b.toFailable h') := by
  have tested := a.findsAs_compose_toFailable b h (Flavor.compose_failableOf h)
  refine ⟨Flavor.compose_failableOf h, eq_of_finds Flavor.not_isCase_failableOf (fun hr s p => ?_) (fun hw s p => ?_)
    fun ho s v => ?_, tested⟩
  · rw [find_toFailable, tested.find]
  · rw [findMut_toFailable, tested.findMut]
  · rw [findOwned_toFailable, tested.findOwned]

/-- A tagged reading is taken, and its text, if it is one, moved out of it. -/
theorem compose_toFailable_text :
    ∃ (a : Accessor .owned (.wrap (.tagged (.atom "w::sensor_tag")) (.plain "w::Reading")) (.plain "w::Reading"))
    (b : Accessor .caseWritable (.plain "w::Reading") (.plain "std::string"))
    (h : Flavor.owned.compose .caseWritable = some .failableOwned)
    (h' : Flavor.failableOwned.compose .failableWritable = some .failableOwned),
    a.toFailable.compose b.toFailable h' = (a.compose b h).toFailable ∧
      (a.compose b h).FindsAs (a.toFailable.compose b.toFailable h') ∧
      (a.compose b h).findOwned rfl .empty (.holding (.alternative 1 (.text "warm"))) =
        .done (.empty, some (.text "warm")) ∧
      (a.compose b h).findOwned rfl .empty (.holding (.alternative 0 (.int 3))) = .done (.empty, none) := by
  let a := WrapperPath.o ⟨.tagged (.atom "w::sensor_tag"), .plain "w::Reading"⟩
  let b := UnionCase.caseW ⟨"text", 1, .single (.plain "std::string"), .all⟩ (.plain "w::Reading")
  obtain ⟨h', same, tested⟩ := compose_toFailable a b (k := .failableOwned) rfl
  exact ⟨a, b, rfl, h', same, tested, rfl, rfl⟩

end Accessor
end Accessors
