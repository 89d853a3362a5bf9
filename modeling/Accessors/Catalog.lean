import Accessors.Shape

/-! # The catalog of wrappers

Which type names are wrappers, of what shape, and which of their arguments are the payload and the key.
An edit of a name hides what the name had before; an alias copies the entry its target has at that
moment. -/

namespace Accessors

/-- How a wrapper is recognised: its shape, its sharing mode, and the positions of its payload and key
    among the type arguments. -/
structure Entry where
  shape : Shape
  sharing : Sharing := .none
  payload : Nat := 0
  key : Option Nat := none
deriving DecidableEq, Repr

/-- The number of type arguments an entry reads up to. -/
def Entry.needed (e : Entry) : Nat :=
  match e.key with
  | some k => max (e.payload + 1) (k + 1)
  | none => e.payload + 1

/-- The known wrapper names with their entries, the latest edit first. -/
structure Catalog where
  entries : List (String × Entry)
deriving DecidableEq, Repr

/-- An alias to a name that is not in the catalog. -/
structure UnknownTarget where
  name : String
  target : String
deriving DecidableEq, Repr

def UnknownTarget.message (u : UnknownTarget) : String :=
  "cannot alias " ++ u.name ++ " to unknown wrapper " ++ u.target

namespace Catalog

def empty : Catalog := ⟨[]⟩

def find? (c : Catalog) (name : String) : Option Entry := c.entries.lookup name

/-- Gives a name an entry, in place of the one it may have had. -/
def insert (c : Catalog) (name : String) (e : Entry) : Catalog := ⟨(name, e) :: c.entries⟩

/-- Gives a name the present entry of another one. -/
def aliasTo (c : Catalog) (name target : String) : Except UnknownTarget Catalog :=
  match c.find? target with
  | some e => .ok (c.insert name e)
  | none => .error ⟨name, target⟩

/-- The wrappers known from the start. -/
def standard : Catalog :=
  ⟨[("std::optional", { shape := .optional }),
    ("std::unique_ptr", { shape := .indirection }),
    ("std::shared_ptr", { shape := .sharedOwnership, sharing := .atomic }),
    ("boost::local_shared_ptr", { shape := .sharedOwnership, sharing := .threadLocal }),
    ("std::vector", { shape := .sequence }),
    ("std::deque", { shape := .deque }),
    ("std::list", { shape := .linkedSequence }),
    ("std::priority_queue", { shape := .priorityQueue }),
    ("std::unordered_map", { shape := .hashMapping, payload := 1, key := some 0 }),
    ("std::map", { shape := .orderedMapping, payload := 1, key := some 0 }),
    ("std::unordered_set", { shape := .hashSet, key := some 0 }),
    ("std::set", { shape := .orderedSet, key := some 0 }),
    ("boost::outcome_v2::result", { shape := .successFailure }),
    ("kpath::mutex_guarded", { shape := .mutexGuarded }),
    ("kpath::rw_guarded", { shape := .rwGuarded }),
    ("std::weak_ptr", { shape := .weakBackReference }),
    ("kpath::tagged", { shape := .tagged })]⟩

/-- An edit of the catalog. -/
inductive Edit where
  | insert (name : String) (entry : Entry)
  | aliasTo (name target : String)
deriving DecidableEq, Repr

def edit (c : Catalog) : Edit → Except UnknownTarget Catalog
  | .insert n e => .ok (c.insert n e)
  | .aliasTo n t => c.aliasTo n t

/-- The catalog after some edits, those that fail left out. -/
def edits (c : Catalog) (es : List Edit) : Catalog :=
  es.foldl (fun c e => match c.edit e with | .ok c' => c' | .error _ => c) c

@[simp] theorem find?_insert (c : Catalog) (m n : String) (e : Entry) :
    (c.insert m e).find? n = if n = m then some e else c.find? n := by
  by_cases h : n = m
  · simp [find?, insert, h]
  · simp [find?, insert, List.lookup_cons, h, beq_eq_false_iff_ne.mpr h]

end Catalog
end Accessors
