import Accessors.Flavor

/-! # Sets of flavors

A set is known by its members: two sets with the same members are equal, and a set is listed in the
order of the flavors. -/

namespace Accessors

/-- A set of flavors, given by its membership test. -/
structure FlavorSet where
  contains : Flavor → Bool

namespace FlavorSet

theorem ext {s t : FlavorSet} (h : ∀ f, s.contains f = t.contains f) : s = t := by
  cases s; cases t; congr; exact funext h

instance : DecidableEq FlavorSet := fun s t =>
  decidable_of_iff (∀ f ∈ Flavor.all, s.contains f = t.contains f)
    ⟨fun h => ext fun f => h f f.mem_all, fun h _ _ => h ▸ rfl⟩

def ofList (fs : List Flavor) : FlavorSet := ⟨fun f => fs.contains f⟩

def toList (s : FlavorSet) : List Flavor := Flavor.all.filter s.contains

def isEmpty (s : FlavorSet) : Bool := Flavor.all.all fun f => !s.contains f

def inter (s t : FlavorSet) : FlavorSet := ⟨fun f => s.contains f && t.contains f⟩

def union (s t : FlavorSet) : FlavorSet := ⟨fun f => s.contains f || t.contains f⟩

def without (s : FlavorSet) (f : Flavor) : FlavorSet := ⟨fun g => s.contains g && g != f⟩

instance : EmptyCollection FlavorSet := ⟨ofList []⟩
instance : Inter FlavorSet := ⟨inter⟩
instance : Union FlavorSet := ⟨union⟩

@[simp] theorem contains_ofList (fs : List Flavor) (f : Flavor) :
    (ofList fs).contains f = fs.contains f := rfl

@[simp] theorem contains_inter (s t : FlavorSet) (f : Flavor) :
    (s ∩ t).contains f = (s.contains f && t.contains f) := rfl

@[simp] theorem contains_union (s t : FlavorSet) (f : Flavor) :
    (s ∪ t).contains f = (s.contains f || t.contains f) := rfl

@[simp] theorem contains_without (s : FlavorSet) (f g : Flavor) :
    (s.without f).contains g = (s.contains g && g != f) := rfl

@[simp] theorem contains_empty (f : Flavor) : (∅ : FlavorSet).contains f = false := rfl

end FlavorSet
end Accessors
