import Accessors.Proofs.Classification.Parallel
import Accessors.Proofs.Classification.Strict
import Accessors.Proofs.Log.Thresholds

/-! # Refused types

Arguments are counted on the way down the payload chain and clashes are found on the way back, so a wrapper at the
end of the chain that lacks arguments is complained about before any clash, and of several clashes the innermost
one. What stands off the chain is never complained about. -/

namespace Accessors

theorem Entry.lt_needed_iff (e : Entry) (n : Nat) : n < e.needed ↔ n ≤ e.payload ∨ ∃ k ∈ e.key, n ≤ k := by
  unfold Entry.needed
  cases e.key with
  | none => simp only [Option.mem_def, reduceCtorEq, false_and, exists_false, or_false, Nat.lt_succ_iff]
  | some k =>
    simp only [Option.mem_def, Option.some.injEq, exists_eq_left']
    omega

namespace Catalog

/-- A known wrapper that is written without its payload or its key, as the defect that names it. -/
inductive Lacks (catalog : Catalog) (n : TypeExpr) : Defect → Prop where
  | intro {e : Entry} (entry : catalog.find? n.name = some e)
      (few : n.args.length ≤ e.payload ∨ ∃ k ∈ e.key, n.args.length ≤ k) :
      Lacks catalog n (.tooFewArguments n.name e.needed n.args.length)

/-- Why a type is refused. -/
inductive Refuses (catalog : Catalog) (config : Config) (t : TypeExpr) : Defect → Prop where
  /-- Where nested wrappers are left alone, the type itself lacks arguments. -/
  | outermost {d : Defect} (apart : config.nestedCombinations = false) (lacks : catalog.Lacks t d) :
      Refuses catalog config t d
  /-- The payload chain ends at a wrapper that lacks arguments. -/
  | lacking {n : TypeExpr} {d : Defect} (nested : config.nestedCombinations = true) (passes : catalog.Passes t n)
      (lacks : catalog.Lacks n d) : Refuses catalog config t d
  /-- Otherwise strict nesting refuses the innermost wrapper around a combination that does not merge with it. -/
  | clashing {n : TypeExpr} (nested : config.nestedCombinations = true) (strict : config.strictNesting = true)
      (supplied : catalog.Supplied t) (innermost : catalog.InnermostClash (config.lenient config.logLevel) t n) :
      Refuses catalog config t (.nestedTooDeeply n)

/-- The complaint about a wrapper that lacks arguments: it names the wrapper, and tells the least number of arguments
    that reaches beyond its payload and its key, and the number there are. -/
def Short (catalog : Catalog) (n : TypeExpr) (message : String) : Prop :=
  ∃ e needed, catalog.find? n.name = some e ∧ (∀ given, needed ≤ given ↔ e.payload < given ∧ ∀ k ∈ e.key, k < given) ∧
    ¬needed ≤ n.args.length ∧
    message = n.name ++ " needs " ++ toString (needed : Nat) ++ " type arguments, got " ++ toString n.args.length

/-- Two types whose payload chains have the same names. Their other arguments may differ. -/
def SameChain (catalog : Catalog) (t u : TypeExpr) : Prop :=
  catalog.Parallel (fun n m => n.name = m.name) (fun _ _ => True) catalog t u

variable {catalog : Catalog} {config : Config} {t n : TypeExpr} {d : Defect}

/-! ### Too few arguments -/

theorem Lacks.select_eq_none (h : catalog.Lacks n d) : ∃ e, catalog.find? n.name = some e ∧ e.select n.args = none ∧
    d = .tooFewArguments n.name e.needed n.args.length := by
  obtain ⟨entry, few⟩ := h
  exact ⟨_, entry, Entry.select_eq_none_iff.mpr ((Entry.lt_needed_iff _ _).mpr few), rfl⟩

theorem Lacks.short (h : catalog.Lacks n d) : catalog.Short n d.message := by
  obtain @⟨e, entry, few⟩ := h
  have enough : ∀ given, e.needed ≤ given ↔ e.payload < given ∧ ∀ k ∈ e.key, k < given := by
    intro given
    rw [← Nat.not_lt, e.lt_needed_iff]
    simp only [not_or, Nat.not_le, not_exists, not_and]
  exact ⟨e, e.needed, entry, enough, Nat.not_le.mpr ((e.lt_needed_iff _).mpr few), rfl⟩

theorem lacks_of_select {e : Entry} (he : catalog.find? n.name = some e) (hs : e.select n.args = none) :
    catalog.Lacks n (.tooFewArguments n.name e.needed n.args.length) :=
  .intro he ((e.lt_needed_iff _).mp (Entry.select_eq_none_iff.mp hs))

/-- The end of the chain is reached before anything else can be found wrong. -/
theorem outcome_of_lacks (nested : config.nestedCombinations = true) (passes : catalog.Passes t n)
    (lacks : catalog.Lacks n d) : (classifyNode catalog config t).outcome = .error d := by
  induction passes with
  | here t =>
    obtain ⟨e, he, hs, rfl⟩ := lacks.select_eq_none
    rw [classifyNode_of_lacking he hs]
    rfl
  | payload next _ ih =>
    obtain ⟨e, k, he, hs⟩ := payload?_eq_some.mp next
    rw [classifyNode_of_select nested he hs]
    simp only [Logged.andThen, ih lacks]

theorem supplied_or_lacks (catalog : Catalog) (t : TypeExpr) :
    catalog.Supplied t ∨ ∃ n d, catalog.Passes t n ∧ catalog.Lacks n d := by
  induction t using catalog.chain_induction with
  | node t ih =>
    rcases classifyNode_cases catalog t with ⟨hn, -⟩ | ⟨e, he, hs, -⟩ | ⟨e, p, k, he, hs, -⟩
    · refine .inl fun n e passes he => ?_
      have last : catalog.payload? t = none := by rw [payload?, hn, Option.bind_none]
      cases passes.eq_of_last last
      cases hn.symm.trans he
    · exact .inr ⟨t, _, .here t, lacks_of_select he hs⟩
    · have next : catalog.payload? t = some p := payload?_eq_some.mpr ⟨e, k, he, hs⟩
      rcases ih p next with supplied | ⟨n, d, passes, lacks⟩
      · exact .inl (supplied_of_select he hs supplied)
      · exact .inr ⟨n, d, .payload next passes, lacks⟩

/-! ### Clashes -/

/-- What is written of a classification does not change it. -/
theorem outcome_lenient (catalog : Catalog) (config : Config) (l m : Level) (t : TypeExpr) :
    (classify catalog (config.lenient l) t).outcome = (classify catalog (config.lenient m) t).outcome :=
  (classify_filtered catalog (config.lenient l) l t).outcome.trans
    (classify_filtered catalog (config.lenient l) m t).outcome.symm

theorem Clashes.relog {l m : Level} (h : catalog.Clashes (config.lenient l) n) :
    catalog.Clashes (config.lenient m) n := by
  obtain ⟨entry, selected, payload, combined, apart⟩ := h
  exact ⟨entry, selected, (outcome_lenient catalog config m l _).trans payload, combined, apart⟩

theorem InnermostClash.relog {l m : Level} (h : catalog.InnermostClash (config.lenient l) t n) :
    catalog.InnermostClash (config.lenient m) t n where
  passes := h.passes
  clashes := h.clashes.relog
  innermost k passes clashes := h.innermost k passes clashes.relog

/-- Either of two innermost clashes is on the chain of the other. -/
theorem InnermostClash.unique {m : TypeExpr} (h : catalog.InnermostClash config t n)
    (h' : catalog.InnermostClash config t m) : n = m :=
  (h'.innermost n h.passes h.clashes).antisymm (h.innermost m h'.passes h'.clashes)

/-- Without strict nesting a type with all its arguments is classified; under it, the innermost clash is refused. -/
theorem outcome_of_supplied (nested : config.nestedCombinations = true) (supplied : catalog.Supplied t) :
    (∃ c, (classify catalog config t).outcome = .ok c ∧ (config.strictNesting = true →
      ∀ n, catalog.Passes t n → ¬catalog.Clashes (config.lenient config.logLevel) n)) ∨
    config.strictNesting = true ∧ ∃ n, (classify catalog config t).outcome = .error (.nestedTooDeeply n) ∧
      catalog.InnermostClash (config.lenient config.logLevel) t n := by
  -- The strict run tells where the clash is, whether or not nesting is strict here.
  have both := @strict_or_noticed catalog { config with strictNesting := true } .notice t nested rfl (Nat.le_refl _)
    supplied
  cases strict : config.strictNesting with
  | false =>
    have same : { config with strictNesting := true }.lenient .notice = config.loggedFrom .notice := by
      simp only [Config.lenient, Config.loggedFrom, strict]
    have unlogged := (classify_filtered catalog config config.logLevel t).outcome.trans
      (classify_filtered catalog config .notice t).outcome.symm
    rw [same] at both
    left
    rcases both with ⟨c, -, hc, -⟩ | ⟨n, r, rest, c, -, hc, -⟩
    · refine ⟨c, unlogged.trans ?_, nofun⟩
      rw [outcome_classify, hc]
      rfl
    · refine ⟨c, unlogged.trans ?_, nofun⟩
      rw [outcome_classify, hc]
  | true =>
    have same : { config with strictNesting := true } = config := by
      rw [← strict]
    rw [same] at both
    rcases both with ⟨c, hc, -, none⟩ | ⟨n, r, rest, c, hn, -, -, innermost⟩
    · refine .inl ⟨c, ?_, fun _ n passes clashes => none n passes clashes.relog⟩
      rw [outcome_classify, hc]
      rfl
    · refine .inr ⟨rfl, n, ?_, innermost.relog⟩
      rw [outcome_classify, hn]

/-! ### Refused or not -/

theorem refuses_of_outcome (refused : (classify catalog config t).outcome = .error d) :
    catalog.Refuses config t d := by
  cases nested : config.nestedCombinations with
  | false =>
    rw [outcome_classify] at refused
    rcases classifyNode_cases catalog t with ⟨-, eq⟩ | ⟨e, he, hs, eq⟩ | ⟨e, p, k, -, -, eq⟩
    · rw [eq] at refused
      cases refused
    · rw [eq] at refused
      cases refused
      exact .outermost nested (lacks_of_select he hs)
    · rw [eq, nested] at refused
      cases refused
  | true =>
    rcases catalog.supplied_or_lacks t with supplied | ⟨n, d', passes, lacks⟩
    · rcases outcome_of_supplied nested supplied with ⟨c, hc, -⟩ | ⟨strict, n, hn, innermost⟩
      · cases hc.symm.trans refused
      · cases hn.symm.trans refused
        exact .clashing nested strict supplied innermost
    · have first := outcome_of_lacks nested passes lacks
      rw [outcome_classify, first] at refused
      cases refused
      exact .lacking nested passes lacks

theorem Refuses.outcome (h : catalog.Refuses config t d) : (classify catalog config t).outcome = .error d := by
  cases h with
  | outermost apart lacks =>
    obtain ⟨e, he, hs, rfl⟩ := lacks.select_eq_none
    rw [outcome_classify, classifyNode_of_lacking he hs]
    rfl
  | lacking nested passes lacks =>
    rw [outcome_classify]
    exact outcome_of_lacks nested passes lacks
  | clashing nested strict supplied innermost =>
    rcases outcome_of_supplied nested supplied with ⟨c, -, none⟩ | ⟨-, m, hm, innermost'⟩
    · exact absurd innermost.clashes (none strict _ innermost.passes)
    · rw [hm, innermost.unique innermost']

end Catalog

/-- A type is refused exactly for a wrapper on its payload chain that lacks arguments or, if there is none, for the
    innermost clash under strict nesting. The arguments off the chain have no part in it. -/
theorem classify_refuses (catalog : Catalog) (config : Config) (t : TypeExpr) :
    (∀ d, (classify catalog config t).outcome = .error d ↔ catalog.Refuses config t d) ∧
    (∀ n d, catalog.Lacks n d → catalog.Short n d.message) ∧
    (∀ n, (Defect.nestedTooDeeply n).message = "wrapper nested too deeply: " ++ n.text) ∧
    ∀ u, catalog.SameChain t u → EndAlike (fun n m => n.name = m.name) (fun _ _ => True)
      (classify catalog config t).outcome (classify catalog config u).outcome :=
  ⟨fun _ => ⟨Catalog.refuses_of_outcome, Catalog.Refuses.outcome⟩, fun _ _ => Catalog.Lacks.short, fun _ => rfl,
    fun _ same => same.classify config⟩

/-- A vector of tables that would clash with their items, optional pointers, if the map they point to had values. -/
def keyedTable (key : TypeExpr) : TypeExpr :=
  .node "std::vector" [.node "std::unordered_map" [key,
    .node "std::optional" [.node "std::unique_ptr" [.node "std::map" [.atom "int"]]]]]

theorem classify_refuses_table :
    Catalog.standard.Refuses { strictNesting := true } (keyedTable (.atom "std::string"))
      (.tooFewArguments "std::map" 2 1) ∧
    Catalog.standard.Short (.node "std::map" [.atom "int"]) "std::map needs 2 type arguments, got 1" ∧
    Catalog.standard.SameChain (keyedTable (.atom "std::string")) (keyedTable (.atom "std::set")) ∧
    EndAlike (fun n m => n.name = m.name) (fun _ _ => True)
      (classify .standard { strictNesting := true } (keyedTable (.atom "std::string"))).outcome
      (classify .standard { strictNesting := true } (keyedTable (.atom "std::set"))).outcome := by
  have same : Catalog.standard.SameChain (keyedTable (.atom "std::string")) (keyedTable (.atom "std::set")) :=
    .payload rfl rfl rfl rfl rfl .none <| .payload rfl rfl rfl rfl rfl (.some trivial) <|
      .payload rfl rfl rfl rfl rfl .none <| .payload rfl rfl rfl rfl rfl .none <|
        .lacking rfl rfl rfl (by decide) rfl
  obtain ⟨refuses, short, -, alike⟩ :=
    classify_refuses .standard { strictNesting := true } (keyedTable (.atom "std::string"))
  have lacks : Catalog.standard.Lacks (.node "std::map" [.atom "int"]) (.tooFewArguments "std::map" 2 1) :=
    Catalog.lacks_of_select (e := { shape := .orderedMapping, payload := 1, key := some 0 }) rfl rfl
  exact ⟨(refuses _).mp rfl, short _ _ lacks, same, alike _ same⟩

end Accessors
