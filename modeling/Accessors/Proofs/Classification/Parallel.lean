import Accessors.Proofs.Classification.Chain

/-! # Parallel payload chains

Two types, each under a catalog of its own, run in parallel if their payload chains have the same entries node by
node, and either both end at an unknown name or both at a wrapper with equally few arguments. Then they are
classified alike. Nothing else goes into a classification: neither a name as such nor an argument off the chain. -/

namespace Accessors

section
variable (R S : TypeExpr → TypeExpr → Prop)

/-- Two classifications that differ in no more than the inner types, related by `R`, and the keys, related by
    `S`. -/
structure Classification.Alike (c d : Classification) : Prop where
  shape : c.shape = d.shape
  sharing : c.sharing = d.sharing
  isOpaque : c.isOpaque = d.isOpaque
  inner : R c.inner d.inner
  key : Option.Rel S c.key d.key

/-- Two classifications that succeed alike, or fail for the same reason at related nodes. -/
inductive EndAlike : Except Defect Classification → Except Defect Classification → Prop where
  | classified {c d : Classification} (alike : c.Alike R S d) : EndAlike (.ok c) (.ok d)
  | tooFew {n m : TypeExpr} (node : R n m) (needed given : Nat) :
      EndAlike (.error (.tooFewArguments n.name needed given)) (.error (.tooFewArguments m.name needed given))
  | tooDeep {n m : TypeExpr} (node : R n m) : EndAlike (.error (.nestedTooDeeply n)) (.error (.nestedTooDeeply m))

/-- The payload chains of two types, each under its catalog: their nodes are related by `R`, the keys of their nodes
    by `S`. -/
inductive Catalog.Parallel (c d : Catalog) : TypeExpr → TypeExpr → Prop where
  | unknown {t u : TypeExpr} (node : R t u) (here : c.find? t.name = none) (there : d.find? u.name = none) :
      Parallel c d t u
  | lacking {t u : TypeExpr} {e : Entry} (node : R t u) (here : c.find? t.name = some e)
      (there : d.find? u.name = some e) (few : t.args.length < e.needed) (given : t.args.length = u.args.length) :
      Parallel c d t u
  | payload {t u p q : TypeExpr} {k l : Option TypeExpr} {e : Entry} (node : R t u) (here : c.find? t.name = some e)
      (there : d.find? u.name = some e) (selected : e.select t.args = some (p, k))
      (selected' : e.select u.args = some (q, l)) (key : Option.Rel S k l) (further : Parallel c d p q) :
      Parallel c d t u

end

section
variable {R S : TypeExpr → TypeExpr → Prop} {c d : Catalog} {config : Config} {t u p q : TypeExpr}
  {k l : Option TypeExpr} {e : Entry}

theorem Catalog.Parallel.node (h : c.Parallel R S d t u) : R t u := by
  cases h with
  | unknown node => exact node
  | lacking node => exact node
  | payload node => exact node

/-! ### Classified alike -/

theorem rel_orElse {k' l' : Option TypeExpr} (h : Option.Rel S k l) (h' : Option.Rel S k' l') :
    Option.Rel S (k <|> k') (l <|> l') := by
  cases h with
  | none => exact h'
  | some h => exact .some h

namespace Classification
variable {own own' payload payload' : Classification}

theorem Alike.merge (h : own.Alike R S own') (h' : payload.Alike R S payload') (merged : Shape) :
    (merge e own payload merged).Alike R S (merge e own' payload' merged) where
  shape := rfl
  sharing := by simp only [Classification.merge, h.sharing, h'.sharing]
  isOpaque := h.isOpaque
  inner := h'.inner
  key := rel_orElse h.key h'.key

theorem alike_alone (inner : R p q) (key : Option.Rel S k l) (isOpaque : Bool) :
    Alike R S { e.alone p k with isOpaque } { e.alone q l with isOpaque } :=
  ⟨rfl, rfl, rfl, inner, key⟩

theorem Alike.combineWith (h : payload.Alike R S payload') (node : R t u) (inner : R p q) (key : Option.Rel S k l) :
    EndAlike R S (combineWith config t e (e.alone p k) payload).outcome
      (combineWith config u e (e.alone q l) payload').outcome := by
  have alone : Alike R S (e.alone p k) (e.alone q l) := alike_alone inner key false
  unfold Classification.combineWith
  rw [← h.shape]
  cases Shape.combine e.shape payload.shape with
  | some merged => exact .classified (alone.merge h merged)
  | none =>
    cases payload.shape.isCombination with
    | false => exact .classified alone
    | true =>
      cases config.strictNesting with
      | true => exact .tooDeep node
      | false => exact .classified (alike_alone inner key true)

end Classification

theorem EndAlike.andThen {x y : Planning Classification} {f g : Classification → Planning Classification}
    (h : EndAlike R S x.outcome y.outcome)
    (next : ∀ a b, a.Alike R S b → EndAlike R S (f a).outcome (g b).outcome) :
    EndAlike R S (x.andThen f).outcome (y.andThen g).outcome := by
  obtain ⟨_, o⟩ := x
  obtain ⟨_, o'⟩ := y
  cases h with
  | classified alike => exact next _ _ alike
  | tooFew node needed given => exact .tooFew node needed given
  | tooDeep node => exact .tooDeep node

theorem Catalog.Parallel.classify (h : c.Parallel R S d t u) (config : Config) :
    EndAlike R S (classify c config t).outcome (classify d config u).outcome := by
  rw [outcome_classify, outcome_classify]
  induction h with
  | unknown node here there =>
    rw [classifyNode_of_unknown here, classifyNode_of_unknown there]
    exact .classified ⟨rfl, rfl, rfl, node, .none⟩
  | lacking node here there few given =>
    rw [classifyNode_of_lacking here (Entry.select_eq_none_iff.mpr few),
      classifyNode_of_lacking there (Entry.select_eq_none_iff.mpr (given ▸ few)), given]
    exact .tooFew node _ _
  | payload node here there selected selected' key further ih =>
    rw [classifyNode_of_selected here selected, classifyNode_of_selected there selected']
    cases config.nestedCombinations with
    | true => exact ih.andThen fun _ _ alike => alike.combineWith node further.node key
    | false => exact .classified (Classification.alike_alone further.node key false)

end
end Accessors
