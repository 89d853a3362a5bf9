import Accessors.Proofs.Classification.Chain
import Accessors.Proofs.Log.Thresholds

/-! # Defects in the log

A defect is written as an error at the moment it is found, and nothing is written after it on the way out. Nothing
else is written as an error. So the log of a computation tells whether it ended with a defect, and with which
message, and no threshold hides that. -/

namespace Accessors

namespace Record
variable {rs rs' : List Record}

/-- None of the records is an error. -/
def Quiet (rs : List Record) : Prop := ∀ r ∈ rs, r.level ≠ .error

theorem Quiet.append (h : Quiet rs) (h' : Quiet rs') : Quiet (rs ++ rs') := by
  intro r hr
  rcases List.mem_append.mp hr with hr | hr
  · exact h r hr
  · exact h' r hr

theorem Quiet.atLeast (h : Quiet rs) (l : Level) : Quiet (Record.atLeast l rs) :=
  fun r hr => h r (List.mem_filter.mp hr).1

end Record

namespace Planning
variable {α β : Type}

/-- A computation that returns without writing an error, or writes its defect after all other records. -/
inductive Reported : Planning α → Prop where
  | returned {rs : List Record} (quiet : Record.Quiet rs) (a : α) : Reported ⟨rs, .ok a⟩
  | refused {rs : List Record} (quiet : Record.Quiet rs) (d : Defect) :
      Reported ⟨rs ++ [⟨.error, d.message⟩], .error d⟩

namespace Reported

theorem ok (a : α) : Reported (Logged.ok a) := returned (List.forall_mem_nil _) a

theorem fail (d : Defect) : Reported (Planning.fail d : Planning α) := refused (List.forall_mem_nil _) d

theorem notes {rs : List Record} (quiet : Record.Quiet rs) (l : Level) : Reported (Logged.notes l rs : Planning Unit) :=
  returned (quiet.atLeast l) ()

theorem note {level : Level} (quiet : level ≠ .error) (text : String) (l : Level) :
    Reported (Logged.note l ⟨level, text⟩ : Planning Unit) := by
  refine returned ?_ ()
  intro r hr
  split at hr
  · exact List.mem_singleton.mp hr ▸ quiet
  · cases hr

theorem andThen {x : Planning α} {f : α → Planning β} (h : Reported x) (h' : ∀ a, Reported (f a)) :
    Reported (x.andThen f) := by
  cases h with
  | refused quiet d => exact refused quiet d
  | @returned rs quiet a =>
    have rest := h' a
    show Reported ⟨rs ++ (f a).records, (f a).outcome⟩
    generalize f a = y at rest ⊢
    cases rest with
    | returned quiet' b => exact returned (quiet.append quiet') b
    | @refused rs' quiet' d =>
      show Reported ⟨rs ++ (rs' ++ [⟨.error, d.message⟩]), .error d⟩
      rw [← List.append_assoc]
      exact refused (quiet.append quiet') d

theorem each {f : α → Planning β} (h : ∀ a, Reported (f a)) : ∀ as, Reported (Logged.each f as)
  | [] => ok []
  | a :: as => (h a).andThen fun b => (each h as).andThen fun bs => ok (b :: bs)

end Reported

/-- What the log tells of a computation. -/
structure LogsDefect (x : Planning α) : Prop where
  /-- It ends with a defect of some message exactly if it writes the message as an error. -/
  message_iff : ∀ message, (∃ d, x.outcome = .error d ∧ d.message = message) ↔ ⟨.error, message⟩ ∈ x.records
  /-- The defect is its last record and its only error. -/
  last : ∀ d, x.outcome = .error d → ∃ earlier, x.records = earlier ++ [⟨.error, d.message⟩] ∧ Record.Quiet earlier
  returned : ∀ a, x.outcome = .ok a → Record.Quiet x.records
  /-- So it is in what the console writes, at whatever level it was configured last. -/
  written : ∀ d, x.outcome = .error d → ∀ before sink, ∃ earlier,
    Console.writtenAt before sink x = earlier ++ [⟨.error, d.message⟩] ∧ Record.Quiet earlier

theorem Reported.logsDefect {x : Planning α} (h : Reported x) : LogsDefect x := by
  cases h with
  | returned quiet a =>
    refine ⟨fun message => iff_of_false ?_ ?_, nofun, fun _ _ => quiet, nofun⟩
    · rintro ⟨d, ends, -⟩
      cases ends
    · exact fun hr => quiet _ hr rfl
  | @refused rs quiet d =>
    refine ⟨fun message => ⟨?_, ?_⟩, ?_, nofun, ?_⟩
    · rintro ⟨d', ends, rfl⟩
      cases ends
      exact List.mem_append_right rs (.head _)
    · intro hr
      rcases List.mem_append.mp hr with earlier | last
      · exact absurd rfl (quiet _ earlier)
      · cases List.mem_singleton.mp last
        exact ⟨d, rfl, rfl⟩
    · intro d' ends
      cases ends
      exact ⟨rs, rfl, quiet⟩
    · intro d' ends before sink
      cases ends
      refine ⟨Record.atLeast sink rs, ?_, quiet.atLeast sink⟩
      rw [Console.writtenAt_eq, Record.atLeast_append]
      simp [Record.atLeast, Level.le_error]

end Planning

open Planning (Reported)

/-! ### Every computation -/

section
variable (catalog : Catalog) (config : Config)

theorem Classification.combineWith_reported (t : TypeExpr) (e : Entry) (p : TypeExpr) (k : Option TypeExpr)
    (payload : Classification) : Reported (combineWith config t e (e.alone p k) payload) := by
  rcases combineWith_cases t e p k payload with ⟨shape, -, eq⟩ | ⟨-, eq⟩ | ⟨-, -, eq⟩
  · rw [eq]
    exact .ok _
  · rw [eq]
    exact .ok _
  · rw [eq]
    split
    · exact .fail _
    · exact (Reported.note (by decide) _ _).andThen fun _ => .ok _

theorem classifyNode_reported (t : TypeExpr) : Reported (classifyNode catalog config t) := by
  induction t using catalog.chain_induction with
  | node t ih =>
    rcases classifyNode_cases catalog t with ⟨-, eq⟩ | ⟨e, -, -, eq⟩ | ⟨e, p, k, he, hs, eq⟩
    · rw [eq]
      exact .ok _
    · rw [eq]
      exact .fail _
    · have payload := ih p (Catalog.payload?_eq_some.mpr ⟨e, k, he, hs⟩)
      rw [eq]
      split
      · exact payload.andThen fun c => Classification.combineWith_reported config t e p k c
      · exact .ok _

theorem classify_reported (t : TypeExpr) : Reported (classify catalog config t) :=
  (classifyNode_reported catalog config t).andThen fun c => (Reported.note (by decide) _ _).andThen fun _ => .ok c

theorem siteScope_reported (annotations : List Scope) (site : String) : Reported (siteScope annotations site) := by
  rcases annotations with _ | ⟨s, _ | ⟨s', rest⟩⟩
  · exact .ok none
  · exact .ok (some s)
  · exact .fail _

theorem resolveScope_reported (own ofType : List Scope) (default : Scope) (site : String) :
    Reported (resolveScope own ofType default site) :=
  (siteScope_reported ofType _).andThen fun _ => (siteScope_reported own site).andThen fun _ => .ok _

/-- The constructors of a site are announced at the lowest level. -/
theorem quiet_constructors (site : String) (constructors : List Constructor) :
    Record.Quiet (constructors.map (Constructor.record site)) := by
  intro r hr
  obtain ⟨c, -, rfl⟩ := List.mem_map.mp hr
  exact Level.noConfusion

variable (owner : String) (typeScopes : List Scope)

theorem planMember_reported (m : MemberDecl) : Reported (planMember catalog config owner typeScopes m) :=
  (resolveScope_reported m.scopes typeScopes config.defaultScope _).andThen fun _ =>
    (classify_reported catalog config m.type).andThen fun _ =>
      (Reported.notes (quiet_constructors _ _) _).andThen fun _ => .ok _

namespace CaseDecl

theorem check_reported (c : CaseDecl) (site : String) : Reported (c.check site) := by
  unfold check
  split
  · exact .fail _
  · exact .ok ()

theorem classifyPayload_reported (c : CaseDecl) : Reported (c.classifyPayload catalog config) := by
  unfold classifyPayload
  split
  · exact .ok none
  · exact (classify_reported catalog config c.payload).andThen fun p => .ok (some p)
  · exact .ok _

end CaseDecl

theorem planCase_reported (c : CaseDecl) : Reported (planCase catalog config owner typeScopes c) :=
  (c.check_reported _).andThen fun _ =>
    (resolveScope_reported c.scopes typeScopes config.defaultScope _).andThen fun _ =>
      (c.classifyPayload_reported catalog config).andThen fun _ =>
        (Reported.notes (quiet_constructors _ _) _).andThen fun _ => .ok _

theorem planComposite_reported (t : CompositeDecl) : Reported (planComposite catalog config t) :=
  (siteScope_reported t.scopes t.name).andThen fun _ =>
    (Reported.each (planMember_reported catalog config t.name t.scopes) t.members).andThen fun _ =>
      (Reported.note (by decide) _ _).andThen fun _ => .ok _

theorem planUnion_reported (t : UnionDecl) : Reported (planUnion catalog config t) :=
  (siteScope_reported t.scopes t.name).andThen fun _ =>
    (Reported.each (planCase_reported catalog config t.name t.scopes) t.cases).andThen fun _ =>
      (Reported.note (by decide) _ _).andThen fun _ => .ok _

end

/-- Settling a scope, classification and all planning write their defect once, as their last record and as their only
    error, and the console writes it at any level. -/
theorem defects_logged_once :
    (∀ annotations site, Planning.LogsDefect (siteScope annotations site)) ∧
    (∀ own ofType default site, Planning.LogsDefect (resolveScope own ofType default site)) ∧
    ∀ (catalog : Catalog) (config : Config),
      (∀ t, Planning.LogsDefect (classify catalog config t)) ∧
      (∀ owner typeScopes m, Planning.LogsDefect (planMember catalog config owner typeScopes m)) ∧
      (∀ owner typeScopes c, Planning.LogsDefect (planCase catalog config owner typeScopes c)) ∧
      (∀ t, Planning.LogsDefect (planComposite catalog config t)) ∧
      ∀ t, Planning.LogsDefect (planUnion catalog config t) :=
  ⟨fun annotations site => (siteScope_reported annotations site).logsDefect,
    fun own ofType default site => (resolveScope_reported own ofType default site).logsDefect,
    fun catalog config =>
      ⟨fun t => (classify_reported catalog config t).logsDefect,
        fun owner typeScopes m => (planMember_reported catalog config owner typeScopes m).logsDefect,
        fun owner typeScopes c => (planCase_reported catalog config owner typeScopes c).logsDefect,
        fun t => (planComposite_reported catalog config t).logsDefect,
        fun t => (planUnion_reported catalog config t).logsDefect⟩⟩

end Accessors
