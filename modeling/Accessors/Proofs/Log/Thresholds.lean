import Accessors.Plan.Composite
import Accessors.Proofs.Log.Console

/-! # Thresholds filter what is written

A record passes two thresholds: that of the settings, before it reaches the logger, and that of the console. An
error passes only the second, but no threshold is above it. So a computation under some thresholds is compared with
the same computation under the lowest ones: it ends in the same way, and of the records of the other one it writes
those that reach both thresholds. -/

namespace Accessors

namespace Level
variable {l m n : Level}

def higher (l m : Level) : Level := if l ≤ m then m else l

theorem debug_le (l : Level) : debug ≤ l := Nat.zero_le l.severity

theorem le_error (l : Level) : l ≤ error := by cases l <;> decide

theorem higher_le : l.higher m ≤ n ↔ l ≤ n ∧ m ≤ n := by
  by_cases below : l ≤ m
  · rw [higher, if_pos below]
    exact ⟨fun h => ⟨Nat.le_trans below h, h⟩, And.right⟩
  · have above : m ≤ l := Nat.le_of_lt (Nat.lt_of_not_le below)
    rw [higher, if_neg below]
    exact ⟨fun h => ⟨h, Nat.le_trans above h⟩, And.left⟩

end Level

namespace Record
variable {rs : List Record}

theorem atLeast_append (l : Level) (rs rs' : List Record) : atLeast l (rs ++ rs') = atLeast l rs ++ atLeast l rs' :=
  List.filter_append rs rs'

theorem atLeast_debug (rs : List Record) : atLeast .debug rs = rs :=
  List.filter_eq_self.mpr fun r _ => decide_eq_true r.level.debug_le

theorem atLeast_atLeast (l m : Level) (rs : List Record) : atLeast l (atLeast m rs) = atLeast (l.higher m) rs := by
  simp only [atLeast, List.filter_filter, Level.higher_le, Bool.decide_and]

end Record

/-! ### The threshold of the settings -/

/-- One computation ends like another one and writes those of its records that reach a level. -/
structure Logged.Filtered {ε α : Type} (l : Level) (x y : Logged ε α) : Prop where
  outcome : x.outcome = y.outcome
  records : x.records = Record.atLeast l y.records

namespace Logged.Filtered
variable {ε α β : Type} {l : Level}

theorem ok (a : α) : Filtered l (Logged.ok a : Logged ε α) (Logged.ok a) := ⟨rfl, rfl⟩

/-- A defect is always written. -/
theorem fail (message : ε → String) (e : ε) :
    Filtered l (Logged.fail message e : Logged ε α) (Logged.fail message e) where
  outcome := rfl
  records := by simp [Logged.fail, Record.atLeast, Level.le_error]

theorem notes (rs : List Record) : Filtered l (Logged.notes l rs : Logged ε Unit) (Logged.notes .debug rs) where
  outcome := rfl
  records := by simp only [Logged.notes, Record.atLeast_debug]

theorem note (r : Record) : Filtered l (Logged.note l r : Logged ε Unit) (Logged.note .debug r) where
  outcome := rfl
  records := by by_cases h : l ≤ r.level <;> simp [Logged.note, Record.atLeast, Level.debug_le, h]

theorem andThen {x y : Logged ε α} {f g : α → Logged ε β} (h : Filtered l x y) (h' : ∀ a, Filtered l (f a) (g a)) :
    Filtered l (x.andThen f) (y.andThen g) := by
  obtain ⟨rs, o⟩ := y
  obtain ⟨outcome, records⟩ := h
  cases o with
  | error e => exact ⟨by simp only [Logged.andThen, outcome], by simp only [Logged.andThen, outcome, records]⟩
  | ok a =>
    have rest := h' a
    exact ⟨by simp only [Logged.andThen, outcome, rest.outcome],
      by simp only [Logged.andThen, outcome, records, rest.records, Record.atLeast_append]⟩

theorem ite {p : Prop} [Decidable p] {x y x' y' : Logged ε α} (h : Filtered l x y) (h' : Filtered l x' y') :
    Filtered l (if p then x else x') (if p then y else y') := by
  split
  · exact h
  · exact h'

theorem each {f g : α → Logged ε β} (h : ∀ a, Filtered l (f a) (g a)) :
    ∀ as, Filtered l (Logged.each f as) (Logged.each g as)
  | [] => ok []
  | a :: as => (h a).andThen fun b => (each h as).andThen fun bs => ok (b :: bs)

end Logged.Filtered

open Logged (Filtered)

def Config.loggedFrom (config : Config) (l : Level) : Config := { config with logLevel := l }

section Computations
variable (catalog : Catalog) (config : Config) (l : Level)

theorem Classification.combineWith_filtered (t : TypeExpr) (e : Entry) (own payload : Classification) :
    Filtered l (combineWith (config.loggedFrom l) t e own payload)
      (combineWith (config.loggedFrom .debug) t e own payload) := by
  rw [combineWith, combineWith]
  split
  · exact .ok _
  · exact .ite (.ite (.fail Defect.message _) ((Filtered.note _).andThen fun _ => .ok _)) (.ok own)

mutual

theorem classifyNode_filtered :
    ∀ t, Filtered l (classifyNode catalog (config.loggedFrom l) t) (classifyNode catalog (config.loggedFrom .debug) t)
  | .node name args => by
    rw [classifyNode, classifyNode]
    split
    · exact .ok _
    · split
      · exact .fail Defect.message _
      · rename_i e _ _ payload key _
        have merged := (classifyArg_filtered args e.payload).andThen fun c =>
          Classification.combineWith_filtered config l (.node name args) e (e.alone payload key) c
        exact .ite merged (.ok _)

theorem classifyArg_filtered : ∀ ts i,
    Filtered l (classifyArg catalog (config.loggedFrom l) ts i) (classifyArg catalog (config.loggedFrom .debug) ts i)
  | [], _ => by
    rw [classifyArg, classifyArg]
    exact .ok _
  | t :: _, 0 => by
    rw [classifyArg, classifyArg]
    exact classifyNode_filtered t
  | _ :: ts, i + 1 => by
    rw [classifyArg, classifyArg]
    exact classifyArg_filtered ts i

end

theorem classify_filtered (t : TypeExpr) :
    Filtered l (classify catalog (config.loggedFrom l) t) (classify catalog (config.loggedFrom .debug) t) :=
  (classifyNode_filtered catalog config l t).andThen fun c => (Filtered.note _).andThen fun _ => .ok c

/-- The annotations of a site are complained about at any threshold. -/
theorem siteScope_filtered (annotations : List Scope) (site : String) :
    Filtered l (siteScope annotations site) (siteScope annotations site) := by
  rcases annotations with _ | ⟨s, _ | ⟨s', rest⟩⟩
  · exact .ok none
  · exact .ok (some s)
  · exact .fail Defect.message _

theorem resolveScope_filtered (own ofType : List Scope) (default : Scope) (site : String) :
    Filtered l (resolveScope own ofType default site) (resolveScope own ofType default site) :=
  (siteScope_filtered l ofType _).andThen fun _ => (siteScope_filtered l own site).andThen fun _ => .ok _

variable (owner : String) (typeScopes : List Scope)

theorem planMember_filtered (m : MemberDecl) :
    Filtered l (planMember catalog (config.loggedFrom l) owner typeScopes m)
      (planMember catalog (config.loggedFrom .debug) owner typeScopes m) :=
  (resolveScope_filtered l m.scopes typeScopes config.defaultScope _).andThen fun _ =>
    (classify_filtered catalog config l m.type).andThen fun _ => (Filtered.notes _).andThen fun _ => .ok _

namespace CaseDecl

theorem check_filtered (c : CaseDecl) (site : String) : Filtered l (c.check site) (c.check site) := by
  rw [check]
  split
  · exact .fail Defect.message _
  · exact .ok ()

theorem classifyPayload_filtered (c : CaseDecl) :
    Filtered l (c.classifyPayload catalog (config.loggedFrom l))
      (c.classifyPayload catalog (config.loggedFrom .debug)) := by
  rw [classifyPayload, classifyPayload]
  split
  · exact .ok none
  · exact (classify_filtered catalog config l c.payload).andThen fun p => .ok (some p)
  · exact .ok _

end CaseDecl

theorem planCase_filtered (c : CaseDecl) :
    Filtered l (planCase catalog (config.loggedFrom l) owner typeScopes c)
      (planCase catalog (config.loggedFrom .debug) owner typeScopes c) :=
  (c.check_filtered l _).andThen fun _ =>
    (resolveScope_filtered l c.scopes typeScopes config.defaultScope _).andThen fun _ =>
      (c.classifyPayload_filtered catalog config l).andThen fun _ => (Filtered.notes _).andThen fun _ => .ok _

theorem planComposite_filtered (t : CompositeDecl) :
    Filtered l (planComposite catalog (config.loggedFrom l) t) (planComposite catalog (config.loggedFrom .debug) t) :=
  (siteScope_filtered l t.scopes t.name).andThen fun _ =>
    (Filtered.each (planMember_filtered catalog config l t.name t.scopes) t.members).andThen fun _ =>
      (Filtered.note _).andThen fun _ => .ok _

theorem planUnion_filtered (t : UnionDecl) :
    Filtered l (planUnion catalog (config.loggedFrom l) t) (planUnion catalog (config.loggedFrom .debug) t) :=
  (siteScope_filtered l t.scopes t.name).andThen fun _ =>
    (Filtered.each (planCase_filtered catalog config l t.name t.scopes) t.cases).andThen fun _ =>
      (Filtered.note _).andThen fun _ => .ok _

end Computations

/-! ### The threshold of the console -/

namespace Console
variable {c : Console}

/-- While logging is enabled the console writes the records that reach its threshold, in order. -/
theorem Phase.emitAll (h : Phase c) (enabled : c.enabled = true) (rs : List Record) :
    (c.emitAll rs).2 = Record.atLeast c.threshold rs := by
  induction rs generalizing c with
  | nil => rfl
  | cons r rs ih =>
    obtain ⟨phase, -, enabled', threshold'⟩ := h.ready
    have now : (c.emit r).2 = if c.threshold ≤ r.level then [r] else [] := by
      simpa only [enabled, true_and] using h.written r
    have later := ih phase (enabled'.trans enabled)
    rw [threshold'] at later
    calc (c.emitAll (r :: rs)).2
      _ = (c.emit r).2 ++ (c.ready.emitAll rs).2 := rfl
      _ = Record.atLeast c.threshold (r :: rs) := by
        rw [now, later]
        by_cases reaches : c.threshold ≤ r.level <;> simp [Record.atLeast, reaches]

/-- What the console writes of a computation after it was configured at a level, whatever was asked of it before. -/
def writtenAt (before : List Command) (l : Level) {α : Type} (x : Planning α) : List Record :=
  (((initial.run before).configure l).emitAll x.records).2

theorem writtenAt_eq (before : List Command) (l : Level) {α : Type} (x : Planning α) :
    writtenAt before l x = Record.atLeast l x.records :=
  ((phase_run before).configure l).emitAll rfl x.records

end Console

/-! ### Both thresholds -/

/-- A computation whose thresholds only filter what is written: it ends as it ends under the lowest thresholds, and
    what it writes is what is written then, without what is below the higher threshold. -/
structure PureFilter {α : Type} (computation : Config → Planning α) : Prop where
  outcome : ∀ (config : Config) (l : Level),
    (computation (config.loggedFrom l)).outcome = (computation (config.loggedFrom .debug)).outcome
  written : ∀ (config : Config) (before : List Console.Command) (sink l : Level),
    Console.writtenAt before sink (computation (config.loggedFrom l)) =
      Record.atLeast (sink.higher l) (Console.writtenAt before .debug (computation (config.loggedFrom .debug)))

theorem PureFilter.of_filtered {α : Type} {computation : Config → Planning α}
    (h : ∀ (config : Config) (l : Level),
      Filtered l (computation (config.loggedFrom l)) (computation (config.loggedFrom .debug))) :
    PureFilter computation where
  outcome config l := (h config l).outcome
  written config before sink l := by
    rw [Console.writtenAt_eq, Console.writtenAt_eq, (h config l).records, Record.atLeast_debug, Record.atLeast_atLeast]

/-- The thresholds of classification and of all planning only filter what is written. -/
theorem thresholds_filter (catalog : Catalog) :
    (∀ t, PureFilter fun config => classify catalog config t) ∧
      (∀ owner typeScopes m, PureFilter fun config => planMember catalog config owner typeScopes m) ∧
      (∀ owner typeScopes c, PureFilter fun config => planCase catalog config owner typeScopes c) ∧
      (∀ t, PureFilter fun config => planComposite catalog config t) ∧
      (∀ t, PureFilter fun config => planUnion catalog config t) :=
  ⟨fun t => .of_filtered fun config l => classify_filtered catalog config l t,
    fun owner typeScopes m => .of_filtered fun config l => planMember_filtered catalog config l owner typeScopes m,
    fun owner typeScopes c => .of_filtered fun config l => planCase_filtered catalog config l owner typeScopes c,
    fun t => .of_filtered fun config l => planComposite_filtered catalog config l t,
    fun t => .of_filtered fun config l => planUnion_filtered catalog config l t⟩

end Accessors
