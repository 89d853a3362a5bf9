import Accessors.Accessor.Partial
import Accessors.UnionCase

/-! # What an accessor lends without its types

An accessor that hides its value type, or its root type too, goes through several functions and checks before it
lends anything. To those who ask with the right types it lends exactly what the accessor itself lends, as far as its
flavor has the access, and to all others nothing. -/

namespace Accessors

/-- What is lent to those who ask for types that may be wrong: if the types are right and there is access, what the
    accessor itself lends, and otherwise nothing. -/
structure LentIf (right : Prop) (access : Bool) (lend : access = true → Borrow) (asked : Borrow) : Prop where
  given : right → ∀ h : access = true, asked = lend h
  noAccess : access = false → asked = fun _ _ => .done none
  wrongTypes : ¬right → asked = fun _ _ => .done none

section
variable {f : Flavor} {R V : Ty} {a : Accessor f R V}

/-- A partial path stands for an accessor: it says what the accessor is, and lends what the accessor lends. -/
structure PartialPath.StandsFor (p : PartialPath R) (a : Accessor f R V) : Prop where
  flavor : p.flavor = f
  valueType : p.valueType = V
  readable : p.readable = f.reads
  writable : p.writable = f.writes
  get : ∀ (h : f.reads = true) s r, p.get s r = .ok (a.find h s r)
  getMut : ∀ (h : f.writes = true) s r, p.getMut s r = .ok (a.findMut h s r)
  /-- The path is refused, with its flavor in the message, exactly if the accessor does not have the access. -/
  refused : ∀ s r u, p.get s r = .error u ↔ f.reads = false ∧ u = ⟨false, f⟩
  refusedMut : ∀ s r u, p.getMut s r = .error u ↔ f.writes = false ∧ u = ⟨true, f⟩
  getAs : ∀ T, LentIf (T = V) f.reads (a.find ·) (p.getAs T)
  getMutAs : ∀ T, LentIf (T = V) f.writes (a.findMut ·) (p.getMutAs T)

/-- A path without types stands for an accessor. -/
structure AnyPath.StandsFor (p : AnyPath) (a : Accessor f R V) : Prop where
  flavor : p.flavor = f
  rootType : p.rootType = R
  valueType : p.valueType = V
  getAs : ∀ S T, LentIf (S = R ∧ T = V) f.reads (a.find ·) (p.getAs S T)
  getMutAs : ∀ S T, LentIf (S = R ∧ T = V) f.writes (a.findMut ·) (p.getMutAs S T)

/-! ### Kept functions -/

/-- A function is kept exactly with the access, and is the accessor's own. -/
structure Keeps (access : Bool) (lend : access = true → Borrow) (fn : Option Borrow) : Prop where
  own : ∀ h : access = true, fn = some (lend h)
  without : access = false → fn = none

section
variable {access : Bool} {lend : access = true → Borrow} {fn : Option Borrow}

theorem Keeps.isSome_eq (h : Keeps access lend fn) : fn.isSome = access := by
  cases access with
  | true => rw [h.own rfl, Option.isSome_some]
  | false => rw [h.without rfl, Option.isSome_none]

theorem Keeps.lentIf (h : Keeps access lend fn) {right right' : Prop} [Decidable right] (same : right ↔ right') :
    LentIf right' access lend (lendIf right fn) where
  given hr has := by
    funext s r
    simp only [lendIf, h.own has, if_pos (same.mpr hr)]
  noAccess lacks := by
    funext s r
    simp only [lendIf, h.without lacks, ite_self]
  wrongTypes hr := by
    funext s r
    exact if_neg fun right => hr (same.mp right)

/-- A function that goes through a checked use is the one that the use allows. -/
theorem keeps_granted {use : Store → Place → Except NoAccess (Run (Option Place))} {allowed : Bool}
    (same : allowed = access) (given : ∀ (h : access = true) s r, use s r = .ok (lend h s r)) :
    Keeps access lend (if allowed then some fun s r => AnyPath.granted (use s r) else none) where
  own h := by
    rw [if_pos (same.trans h)]
    congr 1
    funext s r
    rw [given h]
    rfl
  without h := if_neg (ne_true_of_eq_false (same.trans h))

/-- A use that is given with the access, and refused without it, is refused exactly without it. -/
theorem refused_iff {α : Type} {use : Except NoAccess α} {u v : NoAccess}
    (given : access = true → ∃ x, use = .ok x) (refused : access = false → use = .error v) :
    use = .error u ↔ access = false ∧ u = v := by
  cases access with
  | true =>
    obtain ⟨x, rfl⟩ := given rfl
    constructor
    · rintro ⟨⟩
    · rintro ⟨⟨⟩, -⟩
  | false =>
    rw [refused rfl, Except.error.injEq, eq_comm]
    exact (and_iff_right rfl).symm

end

theorem Erased.keeps_readFn? (a : Accessor f R V) : Keeps f.reads (a.find ·) (Erased.of a).readFn? :=
  ⟨fun h => dif_pos h, fun h => dif_neg (ne_true_of_eq_false h)⟩

theorem Erased.keeps_writeFn? (a : Accessor f R V) : Keeps f.writes (a.findMut ·) (Erased.of a).writeFn? :=
  ⟨fun h => dif_pos h, fun h => dif_neg (ne_true_of_eq_false h)⟩

/-! ### Without the value type -/

namespace PartialPath
variable {p : PartialPath R}

theorem get_of_keeps {lend : f.reads = true → Borrow} (h : Keeps f.reads lend p.readFn) (reads : f.reads = true)
    (s : Store) (r : Place) : p.get s r = .ok (lend reads s r) := by
  rw [get, h.own reads]

theorem getMut_of_keeps {lend : f.writes = true → Borrow} (h : Keeps f.writes lend p.writeFn)
    (writes : f.writes = true) (s : Store) (r : Place) : p.getMut s r = .ok (lend writes s r) := by
  rw [getMut, h.own writes]

theorem get_of_none (h : p.readFn = none) (s : Store) (r : Place) : p.get s r = .error ⟨false, p.flavor⟩ := by
  rw [get, h]

theorem getMut_of_none (h : p.writeFn = none) (s : Store) (r : Place) : p.getMut s r = .error ⟨true, p.flavor⟩ := by
  rw [getMut, h]

theorem standsFor (a : Accessor f R V) (h : f.family ≠ .own) : (ofErased (.of a) h).StandsFor a := by
  have reads : Keeps f.reads (a.find ·) (ofErased (.of a) h).readFn := Erased.keeps_readFn? a
  have writes : Keeps f.writes (a.findMut ·) (ofErased (.of a) h).writeFn := Erased.keeps_writeFn? a
  exact
    { flavor := rfl
      valueType := rfl
      readable := reads.isSome_eq
      writable := writes.isSome_eq
      get := get_of_keeps reads
      getMut := getMut_of_keeps writes
      refused := fun s r u =>
        refused_iff (fun has => ⟨_, get_of_keeps reads has s r⟩) fun lacks =>
          get_of_none (reads.without lacks) s r
      refusedMut := fun s r u =>
        refused_iff (fun has => ⟨_, getMut_of_keeps writes has s r⟩) fun lacks =>
          getMut_of_none (writes.without lacks) s r
      getAs := fun T => reads.lentIf eq_comm
      getMutAs := fun T => writes.lentIf eq_comm }

end PartialPath

/-! ### Without any type -/

namespace AnyPath
variable {p : PartialPath R}

/-- The functions of a path without types, which go through a partial path, are still the accessor's own. -/
theorem standsFor_ofPartial (h : p.StandsFor a) : (ofPartial p).StandsFor a := by
  have reads : Keeps f.reads (a.find ·) (ofPartial p).readFn := keeps_granted h.readable h.get
  have writes : Keeps f.writes (a.findMut ·) (ofPartial p).writeFn := keeps_granted h.writable h.getMut
  have types : ∀ S T, ((ofPartial p).rootType = S ∧ (ofPartial p).valueType = T) ↔ S = R ∧ T = V := by
    intro S T
    rw [show (ofPartial p).valueType = V from h.valueType, eq_comm, @eq_comm _ V]
    rfl
  exact ⟨h.flavor, rfl, h.valueType, fun S T => reads.lentIf (types S T), fun S T => writes.lentIf (types S T)⟩

end AnyPath

/-- Without its value type, or without both types, an accessor that borrows lends what it lends with them. -/
theorem Erased.erased_standsFor (a : Accessor f R V) (h : f.family ≠ .own) :
    (PartialPath.ofErased (.of a) h).StandsFor a ∧ (AnyPath.ofErased (.of a) h).StandsFor a ∧
      (AnyPath.ofPartial (.ofErased (.of a) h)).StandsFor a := by
  have standing := PartialPath.standsFor a h
  exact ⟨standing, AnyPath.standsFor_ofPartial standing, AnyPath.standsFor_ofPartial standing⟩

end

/-- A case that is read and written, and two legs to an e-mail address that may only be written. -/
theorem Erased.erased_standsFor_text :
    ∃ (a : Accessor .caseWritable (.plain "w::Reading") (.plain "std::string"))
      (b : Accessor .failableWritable (.plain "w::Desk") (.plain "std::string"))
      (ha : Flavor.caseWritable.family ≠ .own) (hb : Flavor.failableWritable.family ≠ .own),
      ((PartialPath.ofErased (.of a) ha).StandsFor a ∧ (AnyPath.ofErased (.of a) ha).StandsFor a ∧
        (AnyPath.ofPartial (.ofErased (.of a) ha)).StandsFor a) ∧
      ((PartialPath.ofErased (.of b) hb).StandsFor b ∧ (AnyPath.ofErased (.of b) hb).StandsFor b ∧
        (AnyPath.ofPartial (.ofErased (.of b) hb)).StandsFor b) ∧
      ∀ s r, (PartialPath.ofErased (.of b) hb).get s r = .error ⟨false, .failableWritable⟩ := by
  let a := UnionCase.caseW ⟨"text", 1, .single (.plain "std::string"), .all⟩ (.plain "w::Reading")
  let user := Member.w ⟨"user", 0, .plain "w::Employee", .all⟩ (.plain "w::Desk")
  let email := Member.fw ⟨"email", 2, .wrap .optional (.plain "std::string"), .all⟩ (.plain "w::Employee")
  let b := user.compose email (k := .failableWritable) rfl
  have hb : Flavor.failableWritable.family ≠ .own := by decide
  exact ⟨a, b, by decide, hb, erased_standsFor a _, erased_standsFor b hb,
    fun s r => (((erased_standsFor b hb).1).refused s r _).mpr ⟨rfl, rfl⟩⟩

end Accessors
