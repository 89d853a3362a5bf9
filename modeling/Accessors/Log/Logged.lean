import Accessors.Log.Record

/-! # Logged computations

A computation that writes log records and ends with a value or a defect. The records come in the order
in which they were written; what was written before a defect stays. -/

namespace Accessors

/-- What a computation wrote and how it ended. -/
structure Logged (ε α : Type) where
  records : List Record
  outcome : Except ε α

namespace Logged
variable {ε α β : Type}

def ok (a : α) : Logged ε α := ⟨[], .ok a⟩

/-- Goes on with the value of `x`, if it has one. -/
def andThen (x : Logged ε α) (f : α → Logged ε β) : Logged ε β :=
  match x.outcome with
  | .error e => ⟨x.records, .error e⟩
  | .ok a => ⟨x.records ++ (f a).records, (f a).outcome⟩

instance : Monad (Logged ε) where
  pure := ok
  bind := andThen

/-- Ends with a defect, written as an error. -/
def fail (message : ε → String) (e : ε) : Logged ε α := ⟨[⟨.error, message e⟩], .error e⟩

/-- Writes a record unless its level is below the threshold. -/
def note (threshold : Level) (r : Record) : Logged ε Unit :=
  ⟨if threshold ≤ r.level then [r] else [], .ok ()⟩

/-- Writes some records, those below the threshold left out. -/
def notes (threshold : Level) (rs : List Record) : Logged ε Unit :=
  ⟨Record.atLeast threshold rs, .ok ()⟩

/-- Applies `f` to the items in order, up to the first defect. -/
def each (f : α → Logged ε β) : List α → Logged ε (List β)
  | [] => ok []
  | a :: as => (f a).andThen fun b => (each f as).andThen fun bs => ok (b :: bs)

@[simp] theorem pure_eq (a : α) : (pure a : Logged ε α) = ok a := rfl

@[simp] theorem bind_eq (x : Logged ε α) (f : α → Logged ε β) : (x >>= f) = x.andThen f := rfl

@[simp] theorem ok_andThen (a : α) (f : α → Logged ε β) : (ok a).andThen f = f a := by
  simp [ok, andThen]

@[simp] theorem andThen_ok (x : Logged ε α) : x.andThen ok = x := by
  obtain ⟨rs, o⟩ := x
  cases o <;> simp [andThen, ok]

theorem andThen_assoc {γ : Type} (x : Logged ε α) (f : α → Logged ε β) (g : β → Logged ε γ) :
    (x.andThen f).andThen g = x.andThen fun a => (f a).andThen g := by
  obtain ⟨rs, o⟩ := x
  cases o with
  | error e => rfl
  | ok a =>
    simp only [andThen]
    cases h : (f a).outcome <;> simp

end Logged
end Accessors
