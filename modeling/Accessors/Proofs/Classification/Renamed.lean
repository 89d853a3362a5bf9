import Accessors.Proofs.Classification.Parallel
import Mathlib.Data.List.Forall2

/-! # Names only matter by what is looked up

Classification looks up the names on the payload chain and does nothing else with a name. So types may be renamed
together with the catalog, names with the same entry may stand for each other, and what is not looked up, or not
found, may be anything. -/

namespace Accessors

namespace TypeExpr

mutual

/-- The type with all its names renamed. -/
def rename (ρ : String → String) : TypeExpr → TypeExpr
  | node n ts => node (ρ n) (renameAll ρ ts)

def renameAll (ρ : String → String) : List TypeExpr → List TypeExpr
  | [] => []
  | t :: ts => rename ρ t :: renameAll ρ ts

end

/-- Two types that differ in no more than having one of two names in place of the other, here and there. -/
inductive Interchanged (a b : String) : TypeExpr → TypeExpr → Prop where
  | node {m n : String} {ts us : List TypeExpr} (name : m = n ∨ m = a ∧ n = b ∨ m = b ∧ n = a)
      (args : List.Forall₂ (Interchanged a b) ts us) : Interchanged a b (.node m ts) (.node n us)

theorem name_rename (ρ : String → String) (t : TypeExpr) : (t.rename ρ).name = ρ t.name := by
  cases t
  rfl

theorem renameAll_eq_map (ρ : String → String) (ts : List TypeExpr) : renameAll ρ ts = ts.map (rename ρ) := by
  induction ts with
  | nil => rfl
  | cons t ts ih => rw [renameAll, ih, List.map_cons]

theorem args_rename (ρ : String → String) (t : TypeExpr) : (t.rename ρ).args = t.args.map (rename ρ) := by
  cases t
  exact renameAll_eq_map ρ _

end TypeExpr

def Classification.rename (ρ : String → String) (c : Classification) : Classification :=
  { c with inner := c.inner.rename ρ, key := c.key.map (·.rename ρ) }

/-- The defect of a renamed node. -/
def Defect.rename (ρ : String → String) : Defect → Defect
  | tooFewArguments name needed given => tooFewArguments (ρ name) needed given
  | nestedTooDeeply t => nestedTooDeeply (t.rename ρ)
  | d => d

/-- The type `u` is `t` with the type `x` at the end of its payload chain replaced by `y`. -/
inductive Catalog.EndReplaced (c : Catalog) (x y : TypeExpr) : TypeExpr → TypeExpr → Prop where
  | here : EndReplaced c x y x y
  | payload {name : String} {args : List TypeExpr} {e : Entry} {p q : TypeExpr} {k : Option TypeExpr}
      (entry : c.find? name = some e) (selected : e.select args = some (p, k)) (further : EndReplaced c x y p q) :
      EndReplaced c x y (.node name args) (.node name (args.set e.payload q))

/-- The name whose entry an edit sets. -/
def Catalog.Edit.name : Edit → String
  | insert n _ => n
  | aliasTo n _ => n

section
variable {c d : Catalog} {config : Config} {t u x y : TypeExpr}

/-! ### Chains that run in parallel -/

section
variable {R : TypeExpr → TypeExpr → Prop} {ts us : List TypeExpr} {e : Entry} {p : TypeExpr} {k : Option TypeExpr}

theorem related_getElem? (h : List.Forall₂ R ts us) {i : Nat} (hi : ts[i]? = some t) :
    ∃ u, us[i]? = some u ∧ R t u := by
  induction h generalizing i with
  | nil => cases hi
  | cons head _ ih =>
    cases i with
    | zero =>
      cases hi
      exact ⟨_, rfl, head⟩
    | succ i => exact ih hi

theorem Entry.rel_select (h : List.Forall₂ R ts us) (hs : e.select ts = some (p, k)) :
    ∃ q l, e.select us = some (q, l) ∧ R p q ∧ Option.Rel R k l := by
  obtain ⟨hp, keys⟩ := Entry.select_eq_some_iff.mp hs
  obtain ⟨q, hq, payload⟩ := related_getElem? h hp
  rcases keys with ⟨unkeyed, rfl⟩ | ⟨i, k, keyed, hk, rfl⟩
  · exact ⟨q, none, Entry.select_eq_some_iff.mpr ⟨hq, .inl ⟨unkeyed, rfl⟩⟩, payload, .none⟩
  · obtain ⟨l, hl, key⟩ := related_getElem? h hk
    exact ⟨q, some l, Entry.select_eq_some_iff.mpr ⟨hq, .inr ⟨i, l, keyed, hl, rfl⟩⟩, payload, .some key⟩

/-- A relation that passes from a type to its arguments passes down the chain. -/
theorem parallel_of_arguments (down : ∀ t u, R t u → List.Forall₂ R t.args u.args) (h : R t u)
    (lookups : ∀ n m, c.Passes t n → R n m → d.find? m.name = c.find? n.name) : c.Parallel R R d t u := by
  induction t using c.chain_induction generalizing u with
  | node t ih =>
    have there := lookups t u (.here t) h
    have args := down t u h
    cases he : c.find? t.name with
    | none => exact .unknown h he (there.trans he)
    | some e =>
      cases hs : e.select t.args with
      | none => exact .lacking h he (there.trans he) (Entry.select_eq_none_iff.mp hs) args.length_eq
      | some selected =>
        obtain ⟨p, k⟩ := selected
        obtain ⟨q, l, hs', payload, key⟩ := Entry.rel_select args hs
        have next : c.payload? t = some p := Catalog.payload?_eq_some.mpr ⟨e, k, he, hs⟩
        exact .payload h he (there.trans he) hs hs' key
          (ih p next payload fun n m passes => lookups n m (.payload next passes))

end

theorem parallel_rename {ρ : String → String} (lookups : ∀ n, c.Passes t n → d.find? (ρ n.name) = c.find? n.name) :
    c.Parallel (fun a b => b = a.rename ρ) (fun a b => b = a.rename ρ) d t (t.rename ρ) := by
  refine parallel_of_arguments ?_ rfl ?_
  · rintro t _ rfl
    rw [TypeExpr.args_rename, List.forall₂_map_right_iff, List.forall₂_same]
    exact fun _ _ => rfl
  · rintro n _ passes rfl
    rw [TypeExpr.name_rename]
    exact lookups n passes

theorem parallel_interchanged {a b : String} (same : c.find? a = c.find? b) (h : t.Interchanged a b u) :
    c.Parallel (TypeExpr.Interchanged a b) (TypeExpr.Interchanged a b) c t u := by
  refine parallel_of_arguments ?_ h ?_
  · rintro _ _ ⟨-, args⟩
    exact args
  · rintro _ _ - ⟨rfl | ⟨rfl, rfl⟩ | ⟨rfl, rfl⟩, -⟩
    · rfl
    · exact same.symm
    · exact same

theorem Entry.select_set {e : Entry} {args : List TypeExpr} {p : TypeExpr} {k : Option TypeExpr}
    (hs : e.select args = some (p, k)) (q : TypeExpr) :
    ∃ l, e.select (args.set e.payload q) = some (q, l) ∧ (l = k ∨ k = some p ∧ l = some q) := by
  obtain ⟨hp, keys⟩ := Entry.select_eq_some_iff.mp hs
  have hq : (args.set e.payload q)[e.payload]? = some q :=
    List.getElem?_set_self (List.getElem?_eq_some_iff.mp hp).1
  rcases keys with ⟨unkeyed, rfl⟩ | ⟨i, l, keyed, hl, rfl⟩
  · exact ⟨none, Entry.select_eq_some_iff.mpr ⟨hq, .inl ⟨unkeyed, rfl⟩⟩, .inl rfl⟩
  · -- In a set the key is the payload and changes with it.
    by_cases same : e.payload = i
    · subst same
      exact ⟨some q, Entry.select_eq_some_iff.mpr ⟨hq, .inr ⟨_, q, keyed, hq, rfl⟩⟩, .inr ⟨hl.symm.trans hp, rfl⟩⟩
    · have kept : (args.set e.payload q)[i]? = some l := by rw [List.getElem?_set_ne same, hl]
      exact ⟨some l, Entry.select_eq_some_iff.mpr ⟨hq, .inr ⟨i, l, keyed, kept, rfl⟩⟩, .inl rfl⟩

theorem parallel_endReplaced (hx : c.find? x.name = none) (hy : c.find? y.name = none)
    (h : c.EndReplaced x y t u) :
    c.Parallel (c.EndReplaced x y) (fun k l => k = l ∨ c.EndReplaced x y k l) c t u := by
  induction h with
  | here => exact .unknown .here hx hy
  | @payload name args e p q k entry selected further ih =>
    obtain ⟨l, selected', rfl | ⟨rfl, rfl⟩⟩ := Entry.select_set selected q
    · have key : Option.Rel (fun k l => k = l ∨ c.EndReplaced x y k l) l l := by
        cases l with
        | none => exact .none
        | some l => exact .some (.inl rfl)
      exact .payload (.payload entry selected further) entry entry selected selected' key ih
    · exact .payload (.payload entry selected further) entry entry selected selected' (.some (.inr further)) ih

/-! ### Edits of the catalog -/

namespace Catalog

theorem find?_edit {e : Edit} {n : String} (h : c.edit e = .ok d) (other : n ≠ e.name) :
    d.find? n = c.find? n := by
  cases e with
  | insert m entry =>
    cases h
    exact (find?_insert c m n entry).trans (if_neg other)
  | aliasTo m target =>
    simp only [edit, aliasTo] at h
    split at h
    · cases h
      exact (find?_insert c m n _).trans (if_neg other)
    · cases h

theorem find?_edits {es : List Edit} {n : String} (others : ∀ e ∈ es, n ≠ e.name) :
    (c.edits es).find? n = c.find? n := by
  unfold edits
  induction es generalizing c with
  | nil => rfl
  | cons e es ih =>
    rw [List.foldl_cons, ih fun e' he' => others e' (.tail _ he')]
    cases he : c.edit e with
    | error _ => rfl
    | ok d => exact find?_edit he (others e (.head _))

theorem find?_aliasTo {a b : String} (h : c.aliasTo a b = .ok d) : d.find? a = d.find? b := by
  unfold aliasTo at h
  cases hb : c.find? b with
  | none =>
    rw [hb] at h
    cases h
  | some e =>
    rw [hb] at h
    cases h
    simp [hb]

end Catalog

theorem classifyNode_congr (same : ∀ n, c.Passes t n → d.find? n.name = c.find? n.name) :
    classifyNode d config t = classifyNode c config t := by
  induction t using c.chain_induction with
  | node t ih =>
    have here := same t (.here t)
    cases he : c.find? t.name with
    | none => rw [classifyNode_of_unknown he, classifyNode_of_unknown (here.trans he)]
    | some e =>
      cases hs : e.select t.args with
      | none => rw [classifyNode_of_lacking he hs, classifyNode_of_lacking (here.trans he) hs]
      | some selected =>
        obtain ⟨p, k⟩ := selected
        have next : c.payload? t = some p := Catalog.payload?_eq_some.mpr ⟨e, k, he, hs⟩
        rw [classifyNode_of_selected he hs, classifyNode_of_selected (here.trans he) hs,
          ih p next fun n passes => same n (.payload next passes)]

end

theorem EndAlike.eq_rename {ρ : String → String} {x y : Except Defect Classification}
    (h : EndAlike (fun a b => b = a.rename ρ) (fun a b => b = a.rename ρ) x y) :
    y = (x.map (·.rename ρ)).mapError (·.rename ρ) := by
  cases h with
  | @classified a b alike =>
    obtain ⟨shape, sharing, isOpaque, inner, key⟩ := alike
    have renamed : b = a.rename ρ := by
      cases a
      cases b
      cases key with
      | none => simp_all [Classification.rename]
      | some key => simp_all [Classification.rename]
    rw [renamed]
    rfl
  | tooFew node =>
    rw [node, TypeExpr.name_rename]
    rfl
  | tooDeep node =>
    rw [node]
    rfl

/-- What classification makes of a type depends on names only by the look-ups along its payload chain. -/
structure ByLookups (config : Config) : Prop where
  /-- A renaming that keeps these look-ups renames the result, whether it is a classification or a defect. -/
  renamed : ∀ (c d : Catalog) (t : TypeExpr) (ρ : String → String),
    (∀ n, c.Passes t n → d.find? (ρ n.name) = c.find? n.name) →
      (classify d config (t.rename ρ)).outcome =
        ((classify c config t).outcome.map (·.rename ρ)).mapError (·.rename ρ)
  /-- An alias and its target may stand for each other anywhere in a type. -/
  interchanged : ∀ (c d : Catalog) (a b : String) (t u : TypeExpr), c.aliasTo a b = .ok d → t.Interchanged a b u →
    EndAlike (TypeExpr.Interchanged a b) (TypeExpr.Interchanged a b) (classify d config t).outcome
      (classify d config u).outcome
  /-- An unknown type at the end of the chain may be any other unknown type. -/
  replaced : ∀ (c : Catalog) (x y t u : TypeExpr), c.find? x.name = none → c.find? y.name = none →
    c.EndReplaced x y t u → EndAlike (c.EndReplaced x y) (fun k l => k = l ∨ c.EndReplaced x y k l)
      (classify c config t).outcome (classify c config u).outcome
  /-- Edits of names that are not on the chain make no difference. -/
  edited : ∀ (c : Catalog) (es : List Catalog.Edit) (t : TypeExpr),
    (∀ e ∈ es, ∀ n, c.Passes t n → n.name ≠ e.name) → classify (c.edits es) config t = classify c config t

theorem classify_by_lookups (config : Config) : ByLookups config where
  renamed c d t ρ lookups := ((parallel_rename lookups).classify config).eq_rename
  interchanged c d a b t u h swapped :=
    (parallel_interchanged (Catalog.find?_aliasTo h) swapped).classify config
  replaced c x y t u hx hy h := (parallel_endReplaced hx hy h).classify config
  edited c es t off := by
    have same : ∀ n, c.Passes t n → (c.edits es).find? n.name = c.find? n.name := fun n passes =>
      Catalog.find?_edits fun e he => off e he n passes
    rw [classify, classify, classifyNode_congr same]

/-! ### A table under another name

The keys of the table are off the chain, so they are renamed to a name that is not known at all, and may become
known. -/

def tableEntry : Entry := { shape := .hashMapping, payload := 1, key := some 0 }

def withTable : Catalog := .insert .standard "app::Table" tableEntry

def toTable (n : String) : String :=
  if n = "std::unordered_map" then "app::Table" else if n = "std::string" then "app::Text" else n

def countTable (name : String) : TypeExpr :=
  .node "std::optional" [.node name [.atom "std::string", .atom "int"]]

theorem classify_by_lookups_table :
    ((∀ n, Catalog.standard.Passes (countTable "std::unordered_map") n →
        withTable.find? (toTable n.name) = Catalog.standard.find? n.name) ∧
      (classify withTable {} ((countTable "std::unordered_map").rename toTable)).outcome =
        .ok ⟨.optionalOfHashMapping, .none, .atom "int", some (.atom "app::Text"), false⟩) ∧
    EndAlike (TypeExpr.Interchanged "app::Table" "std::unordered_map")
      (TypeExpr.Interchanged "app::Table" "std::unordered_map")
      (classify withTable {} (countTable "app::Table")).outcome
      (classify withTable {} (countTable "std::unordered_map")).outcome ∧
    EndAlike (Catalog.standard.EndReplaced (.atom "int") (.node "app::Pair" [.atom "std::set"]))
      (fun k l => k = l ∨ Catalog.standard.EndReplaced (.atom "int") (.node "app::Pair" [.atom "std::set"]) k l)
      (classify .standard {} (.node "std::set" [.atom "int"])).outcome
      (classify .standard {} (.node "std::set" [.node "app::Pair" [.atom "std::set"]])).outcome ∧
    classify (Catalog.standard.edits [.insert "std::string" tableEntry]) {} (countTable "std::unordered_map") =
      classify .standard {} (countTable "std::unordered_map") := by
  have onChain : ∀ n, Catalog.standard.Passes (countTable "std::unordered_map") n →
      n = countTable "std::unordered_map" ∨ n = .node "std::unordered_map" [.atom "std::string", .atom "int"] ∨
        n = .atom "int" := by
    intro n passes
    rcases passes.eq_or_next rfl with outer | further
    · exact .inl outer
    · rcases further.eq_or_next rfl with table | item
      · exact .inr (.inl table)
      · exact .inr (.inr (item.eq_of_last rfl))
  have lookups : ∀ n, Catalog.standard.Passes (countTable "std::unordered_map") n →
      withTable.find? (toTable n.name) = Catalog.standard.find? n.name := by
    intro n passes
    rcases onChain n passes with rfl | rfl | rfl <;> rfl
  refine ⟨⟨lookups, (classify_by_lookups {}).renamed .standard withTable _ toTable lookups⟩, ?_, ?_, ?_⟩
  · exact (classify_by_lookups {}).interchanged .standard withTable "app::Table" "std::unordered_map" _ _ rfl
      (.node (.inl rfl) (.cons (.node (.inr (.inl ⟨rfl, rfl⟩)) (.cons (.node (.inl rfl) .nil)
        (.cons (.node (.inl rfl) .nil) .nil))) .nil))
  · exact (classify_by_lookups {}).replaced .standard _ _ _ _ rfl rfl
      (.payload (e := { shape := .orderedSet, key := some 0 }) rfl rfl .here)
  · refine (classify_by_lookups {}).edited .standard _ _ fun e he n passes => ?_
    obtain rfl := List.mem_singleton.mp he
    rcases onChain n passes with rfl | rfl | rfl <;> decide

end Accessors
