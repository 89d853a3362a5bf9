import Accessors.Classification
import Accessors.Ty

/-! # Declared types and classification

A declared type is classified by its written form under the standard catalog; what the classification
says can be compared with the traits of the type. -/

namespace Accessors.Ty

/-- The classification of a declared type under the standard catalog and the default configuration. -/
def classify (t : Ty) : Planning Classification := Accessors.classify .standard {} t.describe

/-- A classification that says the same as the traits of a declared type. -/
def Agrees (t : Ty) (c : Classification) : Prop :=
  c.shape = t.traits.shape ∧ c.sharing = t.traits.sharing ∧ c.isOpaque = t.traits.isOpaque ∧
    c.inner = t.traits.inner.describe

instance (t : Ty) (c : Classification) : Decidable (t.Agrees c) := by
  unfold Agrees; infer_instance

end Accessors.Ty
