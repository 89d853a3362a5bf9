/-! # Runs

What running an accessor's functions leaves behind: the calls that were made, in order, and a result,
unless a function broke off. What comes after a broken run is not run. -/

namespace Accessors

/-- The calls a run made and how it ended. -/
structure Run (α : Type) where
  calls : List String
  outcome : Except String α

namespace Run
variable {α β γ : Type}

def done (a : α) : Run α := ⟨[], .ok a⟩

/-- Goes on with the result of `x`, unless `x` broke off. -/
def andThen (x : Run α) (f : α → Run β) : Run β :=
  match x.outcome with
  | .error e => ⟨x.calls, .error e⟩
  | .ok a => ⟨x.calls ++ (f a).calls, (f a).outcome⟩

instance : Monad Run where
  pure := done
  bind := andThen

/-- Ends with a result after a call. -/
def call (name : String) (a : α) : Run α := ⟨[name], .ok a⟩

/-- Breaks off. -/
def stop (message : String) : Run α := ⟨[], .error message⟩

@[simp] theorem pure_eq (a : α) : (pure a : Run α) = done a := rfl

@[simp] theorem bind_eq (x : Run α) (f : α → Run β) : (x >>= f) = x.andThen f := rfl

@[simp] theorem done_andThen (a : α) (f : α → Run β) : (done a).andThen f = f a := by
  simp [done, andThen]

@[simp] theorem andThen_done (x : Run α) : x.andThen done = x := by
  obtain ⟨cs, o⟩ := x
  cases o <;> simp [andThen, done]

@[simp] theorem andThen_assoc (x : Run α) (f : α → Run β) (g : β → Run γ) :
    (x.andThen f).andThen g = x.andThen fun a => (f a).andThen g := by
  obtain ⟨cs, o⟩ := x
  cases o with
  | error e => rfl
  | ok a =>
    simp only [andThen]
    cases h : (f a).outcome <;> simp

def map (f : α → β) (x : Run α) : Run β := x.andThen fun a => done (f a)

end Run
end Accessors
