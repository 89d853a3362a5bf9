import Accessors.Wrapper.Paths

/-! # Adapters

An accessor of a payload becomes one of a wrapper around it: the wrapper's own step comes first. A wrapper
that may be empty makes a total flavor failable.

A case accessor stays one through a wrapper that can be built again around its payload. -/

namespace Accessors

/-- The wrapper can be built again around a payload. -/
def Wrapper.rewraps : Wrapper → Bool
  | .optional | .unique => true
  | _ => false

namespace Flavor
variable {f : Flavor}

theorem not_owns_of_isCase (h : f.isCase = true) : f.owns = false := by
  cases f <;> simp_all [isCase, owns]

theorem total_of_isCase (h : f.isCase = true) : f.total = false := by
  cases f <;> simp_all [isCase, total]

end Flavor

namespace Accessor
variable {f : Flavor} {T V : Ty}

/-- A case accessor through a wrapper: it looks into the wrapper first and wraps what it builds. -/
def throughCase (w : Wrapper) (a : Accessor f T V) (h : f.isCase = true) :
    Accessor f (.wrap w T) V where
  read hk s p :=
    (match w.read s p with
      | some q => a.find hk s q
      | none => .done none).map (Found.cast (s := false) (Flavor.total_of_isCase h).symm)
  write hk s p :=
    (match w.write s p with
      | some q => a.findMut hk s q
      | none => .done none).map (Found.cast (s := false) (Flavor.total_of_isCase h).symm)
  take hk := by simp [Flavor.not_owns_of_isCase h] at hk
  embed hk v := (a.embed hk v).map .holding

end Accessor

namespace Erased
variable {T V : Ty}

/-- The wrapper's step that an accessor of a family is put behind. -/
def leading? (w : Wrapper) (T : Ty) (family : Family) : Option (Erased (.wrap w T) T) :=
  let step := WrapperPath.step? ⟨w, T⟩
  match family with
  | .read => if w.total then step .readable else step .failableReadable
  | .write => if w.total then step .writable else step .failableWritable
  | .own => if w.total then step .owned else step .failableOwned

/-- The accessor through a wrapper, if the wrapper lets its family of access through. -/
def through? (w : Wrapper) (e : Erased T V) : Option (Erased (.wrap w T) V) :=
  if h : e.flavor.isCase = true ∧ w.rewraps = true then
    some ⟨e.flavor, e.path.throughCase w h.1⟩
  else (leading? w T e.flavor.family).bind fun step => (step.next e).toOption

/-- The accessor through some wrappers, innermost first, if all of them let its family through. -/
def throughAll? {T V : Ty} (e : Erased T V) : List Wrapper → Option ((R : Ty) × Erased R V)
  | [] => some ⟨T, e⟩
  | w :: ws => (e.through? w).bind fun e => e.throughAll? ws

end Erased
end Accessors
