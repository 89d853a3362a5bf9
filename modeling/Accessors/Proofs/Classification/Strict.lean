import Accessors.Proofs.Classification.Chain
import Accessors.Proofs.Log.Defects

/-! # Strict and lenient nesting

A wrapper around a combination that does not merge with it is refused under strict nesting, and otherwise noticed
and left opaque. Both happen in the same place: the strict classification breaks off where the lenient one writes
its first notice, at the innermost such wrapper on the payload chain. Where there is none, the two are the same. -/

namespace Accessors

/-- The settings without strict nesting, logged from a level on. -/
def Config.lenient (config : Config) (level : Level) : Config :=
  { config with strictNesting := false, logLevel := level }

/-- The first notice that a computation writes. -/
def Logged.firstNotice? {ε α : Type} (x : Logged ε α) : Option Record := x.records.find? (·.level = .notice)

namespace Catalog
variable {catalog : Catalog} {config : Config} {t p n : TypeExpr}

/-- A wrapper whose payload is classified as a combination and does not merge with it. -/
inductive Clashes (catalog : Catalog) (config : Config) (n : TypeExpr) : Prop where
  | intro {e : Entry} {p : TypeExpr} {k : Option TypeExpr} {c : Classification} (entry : catalog.find? n.name = some e)
      (selected : e.select n.args = some (p, k)) (payload : (classify catalog config p).outcome = .ok c)
      (combined : c.shape.isCombination = true) (apart : Shape.combine e.shape c.shape = none)

/-- The notice about a wrapper whose payload is left opaque: it names the wrapper, its payload argument and the shape
    that the catalog has for it. -/
inductive Notices (catalog : Catalog) (n : TypeExpr) : Record → Prop where
  | intro {e : Entry} {p : TypeExpr} (entry : catalog.find? n.name = some e) (payload : catalog.payload? n = some p) :
      Notices catalog n ⟨.notice, n.text ++ ": treating " ++ p.text ++ " as opaque inside " ++ e.shape.name⟩

/-- The innermost clash on the payload chain of a type: from every other one the chain leads on to it. -/
structure InnermostClash (catalog : Catalog) (config : Config) (t n : TypeExpr) : Prop where
  passes : catalog.Passes t n
  clashes : catalog.Clashes config n
  innermost : ∀ m, catalog.Passes t m → catalog.Clashes config m → catalog.Passes m n

/-- Every wrapper on the payload chain of a type has the arguments that its entry reads. -/
def Supplied (catalog : Catalog) (t : TypeExpr) : Prop :=
  ∀ n e, catalog.Passes t n → catalog.find? n.name = some e → e.needed ≤ n.args.length

theorem Clashes.shapes {e : Entry} {k : Option TypeExpr} {c : Classification} (h : catalog.Clashes config n)
    (he : catalog.find? n.name = some e) (hs : e.select n.args = some (p, k))
    (hc : (classify catalog config p).outcome = .ok c) :
    c.shape.isCombination = true ∧ Shape.combine e.shape c.shape = none := by
  obtain ⟨entry, selected, payload, combined, apart⟩ := h
  cases entry.symm.trans he
  cases selected.symm.trans hs
  cases payload.symm.trans hc
  exact ⟨combined, apart⟩

theorem Supplied.payload (h : catalog.Supplied t) (next : catalog.payload? t = some p) : catalog.Supplied p :=
  fun n e further => h n e (.payload next further)

theorem supplied_of_select {e : Entry} {k : Option TypeExpr} (he : catalog.find? t.name = some e)
    (hs : e.select t.args = some (p, k)) (h : catalog.Supplied p) : catalog.Supplied t := by
  intro n f passes hf
  rcases passes.eq_or_next (payload?_eq_some.mpr ⟨e, k, he, hs⟩) with rfl | further
  · cases he.symm.trans hf
    exact (e.isSome_select_iff n.args).mp (Option.isSome_iff_exists.mpr ⟨_, hs⟩)
  · exact h n f further hf

/-- The wrappers of a declared type are written with all their arguments. -/
theorem supplied_describe {t : Ty} (h : standard.find? t.core = none) : standard.Supplied t.describe := by
  induction t with
  | plain name =>
    intro n e passes he
    have last : standard.payload? (Ty.plain name).describe = none := by
      rw [payload?, show standard.find? (Ty.plain name).describe.name = none from h, Option.bind_none]
    cases passes.eq_of_last last
    cases h.symm.trans he
  | wrap w t ih => exact supplied_of_select w.find?_name (w.select_arguments t.describe) (ih h)

theorem InnermostClash.payload (h : catalog.InnermostClash config p n) (next : catalog.payload? t = some p) :
    catalog.InnermostClash config t n where
  passes := .payload next h.passes
  clashes := h.clashes
  innermost m passes clashes := by
    rcases passes.eq_or_next next with rfl | further
    · exact .payload next h.passes
    · exact h.innermost m further clashes

theorem innermostClash_of_clashes (clashes : catalog.Clashes config t) (next : catalog.payload? t = some p)
    (none : ∀ m, catalog.Passes p m → ¬catalog.Clashes config m) : catalog.InnermostClash config t t where
  passes := .here t
  clashes := clashes
  innermost m passes clashes := by
    rcases passes.eq_or_next next with rfl | further
    · exact .here m
    · exact absurd clashes (none m further)

end Catalog

/-! ### Both classifications side by side -/

section
variable {catalog : Catalog} {config : Config} {level : Level} {t : TypeExpr}

theorem records_opaqueNotice {t : TypeExpr} {own c : Classification} (heard : level ≤ .notice) :
    ((Logged.note level (opaqueNotice t own)).andThen fun _ => .ok c : Planning Classification) =
      ⟨[opaqueNotice t own], .ok c⟩ := by
  have heard : level ≤ (opaqueNotice t own).level := heard
  simp [Logged.note, Logged.andThen, Logged.ok, heard]

/-- Without strict nesting a classified payload never stops the classification of its wrapper. -/
theorem lenient_combineWith (config : Config) (level : Level) (t : TypeExpr) (e : Entry) (p : TypeExpr)
    (k : Option TypeExpr) (payload : Classification) : ∃ records c,
      Classification.combineWith (config.lenient level) t e (e.alone p k) payload = ⟨records, .ok c⟩ := by
  rcases Classification.combineWith_cases t e p k payload with ⟨shape, -, eq⟩ | ⟨-, eq⟩ | ⟨-, -, eq⟩
  · exact ⟨_, _, eq _⟩
  · exact ⟨_, _, eq _⟩
  · exact ⟨_, _, eq _⟩

/-- The record of the outcome comes last, and it is no notice. -/
theorem records_classify {records : List Record} {c : Classification}
    (h : classifyNode catalog config t = ⟨records, .ok c⟩) :
    ∃ last, (∀ r ∈ last, r.level = .debug) ∧ (classify catalog config t).records = records ++ last := by
  refine ⟨(if config.logLevel ≤ .debug then [⟨.debug, t.text ++ " classified as " ++ c.text⟩] else []), ?_, ?_⟩
  · intro r hr
    split at hr
    · rw [List.mem_singleton.mp hr]
    · cases hr
  · simp only [classify, h, Logged.andThen, Logged.note, Logged.ok, List.append_nil]

/-- Step by step along the chain: either both classifications come to the same without a record, and there is no
    clash, or the strict one breaks off at the innermost clash, which is the first that the lenient one notices. -/
theorem strict_or_noticed (nested : config.nestedCombinations = true) (strict : config.strictNesting = true)
    (heard : level ≤ .notice) (supplied : catalog.Supplied t) :
    (∃ c, classifyNode catalog config t = .ok c ∧ classifyNode catalog (config.lenient level) t = .ok c ∧
      ∀ n, catalog.Passes t n → ¬catalog.Clashes (config.lenient level) n) ∨
    ∃ n r rest c, (classifyNode catalog config t).outcome = .error (.nestedTooDeeply n) ∧
      classifyNode catalog (config.lenient level) t = ⟨r :: rest, .ok c⟩ ∧ catalog.Notices n r ∧
      catalog.InnermostClash (config.lenient level) t n := by
  induction t using catalog.chain_induction with
  | node t ih =>
    have nested' : (config.lenient level).nestedCombinations = true := nested
    rcases classifyNode_cases catalog t with ⟨hn, eq⟩ | ⟨e, he, hs, -⟩ | ⟨e, p, k, he, hs, -⟩
    · refine .inl ⟨_, eq _, eq _, fun n passes clashes => ?_⟩
      have last : catalog.payload? t = none := by rw [Catalog.payload?, hn, Option.bind_none]
      cases passes.eq_of_last last
      obtain ⟨he, -⟩ := clashes
      cases hn.symm.trans he
    · have enough := (e.isSome_select_iff t.args).mpr (supplied t e (.here t) he)
      rw [hs] at enough
      cases enough
    · have next : catalog.payload? t = some p := Catalog.payload?_eq_some.mpr ⟨e, k, he, hs⟩
      rw [classifyNode_of_select nested he hs, classifyNode_of_select nested' he hs]
      rcases ih p next (supplied.payload next) with ⟨c, hc, hc', none⟩ | ⟨n, r, rest, c, hc, hc', notices, innermost⟩
      · have payload : (classify catalog (config.lenient level) p).outcome = .ok c := by
          rw [outcome_classify, hc']
          rfl
        -- What does not clash here does not clash anywhere on the chain.
        have unclashed : ¬catalog.Clashes (config.lenient level) t →
            ∀ n, catalog.Passes t n → ¬catalog.Clashes (config.lenient level) n := by
          intro here n passes
          rcases passes.eq_or_next next with rfl | further
          · exact here
          · exact none n further
        rw [hc, hc', Logged.ok_andThen, Logged.ok_andThen]
        rcases Classification.combineWith_cases t e p k c with ⟨shape, pair, eq⟩ | ⟨alone, eq⟩ | ⟨apart, combined, eq⟩
        · refine .inl ⟨_, eq _, eq _, unclashed fun clashes => ?_⟩
          cases pair.symm.trans (clashes.shapes he hs payload).2
        · refine .inl ⟨_, eq _, eq _, unclashed fun clashes => ?_⟩
          cases alone.symm.trans (clashes.shapes he hs payload).1
        · refine .inr ⟨t, opaqueNotice t (e.alone p k), [], { e.alone p k with isOpaque := true }, ?_, ?_, .intro he next,
            ?_⟩
          · rw [eq, if_pos strict]
            rfl
          · rw [eq]
            exact records_opaqueNotice heard
          · exact Catalog.innermostClash_of_clashes ⟨he, hs, payload, combined, apart⟩ next none
      · obtain ⟨records, c', last⟩ := lenient_combineWith config level t e p k c
        refine .inr ⟨n, r, rest ++ records, c', ?_, ?_, notices, innermost.payload next⟩
        · simp only [Logged.andThen, hc]
        · simp only [Logged.andThen, hc', last, List.cons_append]

/-- How the strict and the lenient classification of a type compare. -/
structure StrictlyNested (catalog : Catalog) (config : Config) (level : Level) (t : TypeExpr) : Prop where
  /-- The strict one refuses a wrapper exactly if the lenient one notices some. -/
  refuses_iff : (∃ d n, (classify catalog config t).outcome = .error d ∧
      d.message = "wrapper nested too deeply: " ++ TypeExpr.text n) ↔
    ∃ n r, catalog.Notices n r ∧ r ∈ (classify catalog (config.lenient level) t).records
  /-- It refuses the innermost clash, which is the first one noticed, and complains about it by name. -/
  refuses_first : ∀ d, (classify catalog config t).outcome = .error d → ∃ n, d = .nestedTooDeeply n ∧
    d.message = "wrapper nested too deeply: " ++ n.text ∧ catalog.InnermostClash (config.lenient level) t n ∧
    ∃ r, catalog.Notices n r ∧ (classify catalog (config.lenient level) t).firstNotice? = some r
  /-- The complaint ends its log. -/
  records : ∀ d, (classify catalog config t).outcome = .error d → ∃ earlier,
    (classify catalog config t).records = earlier ++ [⟨.error, d.message⟩] ∧ Record.Quiet earlier
  same : ∀ c, (classify catalog config t).outcome = .ok c →
    (classify catalog (config.lenient level) t).outcome = .ok c

/-- Strict nesting refuses exactly the types in which the lenient classification leaves something opaque. -/
theorem strict_refuses_noticed (nested : config.nestedCombinations = true) (strict : config.strictNesting = true)
    (heard : level ≤ .notice) (supplied : catalog.Supplied t) : StrictlyNested catalog config level t := by
  have logged := (classify_reported catalog config t).logsDefect.last
  rcases strict_or_noticed nested strict heard supplied with
    ⟨c, hc, hc', -⟩ | ⟨n, r, rest, c, hn, hc, notices, innermost⟩
  · have strictly : (classify catalog config t).outcome = .ok c := by
      rw [outcome_classify, hc]
      rfl
    have leniently : (classify catalog (config.lenient level) t).outcome = .ok c := by
      rw [outcome_classify, hc']
      rfl
    obtain ⟨last, debug, records⟩ := records_classify hc'
    rw [List.nil_append] at records
    constructor
    case refuses_iff =>
      constructor
      · rintro ⟨d, n, hd, -⟩
        cases strictly.symm.trans hd
      · rintro ⟨n, r, ⟨-, -⟩, hr⟩
        cases debug _ (records ▸ hr)
    case refuses_first =>
      intro d hd
      cases strictly.symm.trans hd
    case records => exact logged
    case same =>
      intro c' hc'
      exact leniently.trans (strictly.symm.trans hc')
  · have strictly : (classify catalog config t).outcome = .error (.nestedTooDeeply n) := by
      rw [outcome_classify, hn]
    obtain ⟨last, -, records⟩ := records_classify hc
    constructor
    case refuses_iff =>
      refine ⟨fun _ => ⟨n, r, notices, ?_⟩, fun _ => ⟨_, n, strictly, rfl⟩⟩
      rw [records]
      exact .head _
    case refuses_first =>
      intro d hd
      cases strictly.symm.trans hd
      refine ⟨n, rfl, rfl, innermost, r, notices, ?_⟩
      rw [Logged.firstNotice?, records, List.cons_append]
      obtain ⟨-, -⟩ := notices
      exact List.find?_cons_of_pos rfl
    case records => exact logged
    case same =>
      intro c' hc'
      cases strictly.symm.trans hc'

/-- A list of optional vectors of optional pointers. The list clashes with the optional vector, but the vector has
    clashed with its items before. -/
theorem strict_refuses_noticed_list :
    Catalog.standard.Supplied (Ty.wrap .linkedList (.wrap .optional (.wrap .vector (.wrap .optional
      (.wrap .unique (.plain "int")))))).describe ∧
    StrictlyNested .standard { strictNesting := true } .notice (Ty.wrap .linkedList (.wrap .optional (.wrap .vector
      (.wrap .optional (.wrap .unique (.plain "int")))))).describe ∧
    (classify .standard { strictNesting := true } (Ty.wrap .linkedList (.wrap .optional (.wrap .vector
      (.wrap .optional (.wrap .unique (.plain "int")))))).describe).records =
        [⟨.error, "wrapper nested too deeply: std::vector<std::optional<std::unique_ptr<int>>>"⟩] ∧
    ((classify .standard {} (Ty.wrap .linkedList (.wrap .optional (.wrap .vector
      (.wrap .optional (.wrap .unique (.plain "int")))))).describe).firstNotice?.map Record.text) =
        some ("std::vector<std::optional<std::unique_ptr<int>>>: treating " ++
          "std::optional<std::unique_ptr<int>> as opaque inside sequence") :=
  ⟨Catalog.supplied_describe rfl, strict_refuses_noticed rfl rfl (by decide) (Catalog.supplied_describe rfl),
    by decide +kernel, by decide +kernel⟩

end
end Accessors
