import Accessors.Accessor

/-! # Joining accessors

An accessor followed by another one. Borrowing legs of one family hand a place on; an owning leg hands
the taken value on, and whatever the next leg is, the value it reaches is taken out of that. When a leg
finds nothing, the legs after it are not run. -/

namespace Accessors

namespace Flavor
variable {f g k : Flavor}

theorem total_of_compose (h : f.compose g = some k) : (f.total && g.total) = k.total := by
  cases f <;> cases g <;> simp [compose, family, failable, total, failableOf] at h <;> subst h <;> rfl

theorem reads_of_compose (h : f.compose g = some k) (hk : k.reads = true) :
    f.reads = true ∧ g.reads = true := by
  cases f <;> cases g <;> simp [compose, family, failable, total, failableOf] at h <;> subst h <;>
    simp_all [reads]

theorem writes_of_compose (h : f.compose g = some k) (hk : k.writes = true) :
    f.writes = true ∧ g.writes = true := by
  cases f <;> cases g <;> simp [compose, family, failable, total, failableOf] at h <;> subst h <;>
    simp_all [writes]

theorem owns_of_compose (h : f.compose g = some k) (hk : k.owns = true) : f.owns = true := by
  cases f <;> cases g <;> simp [compose, family, failable, total, failableOf] at h <;> subst h <;>
    simp_all [owns]

theorem not_isCase_of_compose (h : f.compose g = some k) : k.isCase = false := by
  cases f <;> cases g <;> simp [compose, family, failable, total, failableOf] at h <;> subst h <;> rfl

theorem reads_of_not_owns_of_not_writes (h : ¬f.owns = true) (h' : ¬f.writes = true) :
    f.reads = true := by
  cases f <;> simp_all [owns, writes, reads]

theorem total_failableOf : f.failableOf.total = false := by
  cases f <;> rfl

theorem reads_of_failableOf (h : f.failableOf.reads = true) : f.reads = true := by
  cases f <;> simp_all [failableOf, family, reads]

theorem writes_of_failableOf (h : f.failableOf.writes = true) : f.writes = true := by
  cases f <;> simp_all [failableOf, family, writes]

theorem owns_of_failableOf (h : f.failableOf.owns = true) : f.owns = true := by
  cases f <;> simp_all [failableOf, family, owns]

theorem not_isCase_failableOf : f.failableOf.isCase = false := by
  cases f <;> rfl

end Flavor

namespace Accessor
variable {f g k : Flavor} {R M V : Ty}

/-- The value a leg reaches in a value that is in no variable: an owning leg takes it, a writing leg
    moves it out, and a reading leg copies it. -/
def takeFrom (b : Accessor g M V) (s : Store) (m : Value) : Run (Store × Found g.total Value) :=
  if ho : g.owns = true then b.take ho s m
  else if hw : g.writes = true then
    let (s, p) := s.push m
    (b.write hw s p).map fun q =>
      ((q.toOption.elim s fun q => (s.takeOut q).1).pop, q.map s.value)
  else
    let (s, p) := s.push m
    (b.read (Flavor.reads_of_not_owns_of_not_writes ho hw) s p).map fun q => (s.pop, q.map s.value)

/-- The taking of an owning leg followed by another leg. -/
def takeThrough (a : Accessor f R M) (b : Accessor g M V) (h : f.owns = true) (s : Store) (r : Value) :
    Run (Store × Found (f.total && g.total) Value) :=
  (a.take h s r).andThen fun x =>
    match ht : f.total, x.2 with
    | true, m => (b.takeFrom x.1 m).map fun y => (y.1, y.2.cast (by simp))
    | false, none => .done (x.1, none)
    | false, some m => (b.takeFrom x.1 m).map fun y => (y.1, y.2.toOption)

/-- `a` followed by `b`, whose flavors compose to `k`. -/
def compose (a : Accessor f R M) (b : Accessor g M V) (h : f.compose g = some k) : Accessor k R V where
  read hk s p :=
    (a.read (Flavor.reads_of_compose h hk).1 s p).andThen fun m =>
      (m.andThen fun q => b.read (Flavor.reads_of_compose h hk).2 s q).map
        (Found.cast (Flavor.total_of_compose h))
  write hk s p :=
    (a.write (Flavor.writes_of_compose h hk).1 s p).andThen fun m =>
      (m.andThen fun q => b.write (Flavor.writes_of_compose h hk).2 s q).map
        (Found.cast (Flavor.total_of_compose h))
  take hk s r :=
    (a.takeThrough b (Flavor.owns_of_compose h hk) s r).map fun x =>
      (x.1, x.2.cast (Flavor.total_of_compose h))
  embed hk := by simp [Flavor.not_isCase_of_compose h] at hk

/-- The accessor as the failable one of its family. -/
def toFailable (a : Accessor f R V) : Accessor f.failableOf R V where
  read h s p :=
    (a.find (Flavor.reads_of_failableOf h) s p).map
      (Found.cast (s := false) Flavor.total_failableOf.symm)
  write h s p :=
    (a.findMut (Flavor.writes_of_failableOf h) s p).map
      (Found.cast (s := false) Flavor.total_failableOf.symm)
  take h s v :=
    (a.findOwned (Flavor.owns_of_failableOf h) s v).map fun x =>
      (x.1, Found.cast (s := false) Flavor.total_failableOf.symm x.2)
  embed h := by simp [Flavor.not_isCase_failableOf] at h

end Accessor
end Accessors
