import Accessors.Log.Console
import Mathlib.Data.List.Induction

/-! # What the console writes

From process start on the console is in one of three phases: nothing was asked of it yet, its own sink is the only
one and has the threshold last asked for, or it was reset and has no sink. Every command leads from a phase to a
phase, so a record is written once or not at all. Whether it is written was decided by the last command that
configured or reset the console: the use of the logger decides nothing. -/

namespace Accessors

/-- A record is one line of the console, unless its text has line ends. -/
theorem Record.lines_of_not_mem {r : Record} (h : '\n' ∉ r.text.toList) : r.lines = [r.written] := by
  have name : '\n' ∉ r.level.name.toList := by cases r.level <;> decide
  have whole : '\n' ∉ r.written.toList := by
    simp only [written, String.toList_append, List.mem_append, not_or]
    exact ⟨⟨⟨by decide, name⟩, by decide⟩, h⟩
  rw [lines, Text.lines_of_not_mem whole, List.map_singleton, String.ofList_toList]

namespace Console
variable {c : Console} {cmds : List Command}

/-! ### Phases -/

/-- The phases that a console goes through. -/
inductive Phase : Console → Prop where
  /-- Nothing was asked of it yet. -/
  | untouched : Phase initial
  /-- Its own sink is the only one. -/
  | installed (n made : Nat) (l : Level) (used : Bool) : Phase ⟨[⟨n, l⟩], some n, made, l, true, true, used⟩
  /-- It has no sink and passes no records on. -/
  | silent (made : Nat) (l : Level) (used : Bool) : Phase ⟨[], none, made, l, true, false, used⟩

theorem Phase.removeSink (h : Phase c) : c.removeSink = { c with sinks := [], own := none } := by
  cases h with
  | untouched => rfl
  | installed n made l used => simp [Console.removeSink]
  | silent made l used => rfl

theorem Phase.configure (h : Phase c) (l : Level) : Phase (c.configure l) := by
  simp only [Console.configure, h.removeSink, List.nil_append]
  exact .installed c.made (c.made + 1) l c.used

theorem Phase.reset (h : Phase c) : Phase c.reset := by
  rw [Console.reset, h.removeSink]
  exact .silent c.made c.threshold c.used

theorem ready_of_configured (configured : c.configured = true) : c.ready = { c with used := true } := by
  obtain ⟨sinks, own, made, threshold, _, enabled, used⟩ := c
  cases configured
  cases used <;> rfl

theorem Phase.configured_or (h : Phase c) : c.configured = true ∨ c = initial := by
  cases h with
  | untouched => exact .inr rfl
  | installed n made l used => exact .inl rfl
  | silent made l used => exact .inl rfl

/-- A use of the logger asks for no other threshold, and does not enable or disable anything. -/
theorem Phase.ready (h : Phase c) :
    Phase c.ready ∧ c.ready.configured = true ∧ c.ready.enabled = c.enabled ∧ c.ready.threshold = c.threshold := by
  rcases h.configured_or with configured | rfl
  · rw [ready_of_configured configured]
    refine ⟨?_, configured, rfl, rfl⟩
    cases h with
    | untouched => cases configured
    | installed n made l used => exact .installed n made l true
    | silent made l used => exact .silent made l true
  · exact ⟨.installed 0 1 .notice true, rfl, rfl, rfl⟩

theorem Phase.step (h : Phase c) (cmd : Command) : Phase (c.step cmd).1 := by
  cases cmd with
  | configure l => exact h.configure l
  | configureDefault => exact h.configure .notice
  | configureFrom l =>
    cases l with
    | none => exact h
    | some l => exact h.configure l
  | reset => exact h.reset
  | emit r => exact h.ready.1
  | emitFrom t r =>
    simp only [Console.step, emitFrom]
    split
    · exact h.ready.1
    · exact h

theorem run_concat (c : Console) (cmds : List Command) (cmd : Command) :
    c.run (cmds ++ [cmd]) = ((c.run cmds).step cmd).1 := by
  simp only [run, List.foldl_append, List.foldl_cons, List.foldl_nil]

/-- Whatever is asked of the console, it is in one of its phases. -/
theorem phase_run (cmds : List Command) : Phase (initial.run cmds) := by
  induction cmds using List.reverseRecOn with
  | nil => exact .untouched
  | append_singleton cmds cmd ih =>
    rw [run_concat]
    exact ih.step cmd

/-- A record is written once if logging is enabled and the threshold lets it through, and otherwise not at all. -/
theorem Phase.written (h : Phase c) (r : Record) :
    (c.emit r).2 = if c.enabled = true ∧ c.threshold ≤ r.level then [r] else [] := by
  obtain ⟨phase, configured, enabled, threshold⟩ := h.ready
  rw [emit, ← enabled, ← threshold]
  generalize c.ready = d at phase configured
  cases phase with
  | untouched => cases configured
  | installed n made l used => by_cases through : l ≤ r.level <;> simp [writes, through]
  | silent made l used => rfl

theorem Phase.sinks (h : Phase c) : c.sinks.length ≤ 1 ∧ (c.enabled = true → c.ready.sinks.length = 1) := by
  cases h with
  | untouched => decide
  | installed n made l used => cases used <;> exact ⟨Nat.le_refl 1, fun _ => rfl⟩
  | silent made l used => exact ⟨Nat.zero_le 1, fun h => nomatch h⟩

/-! ### Decisions -/

/-- What a command decides: at which level records are written from then on, or that none are. -/
def Command.decision : Command → Option (Option Level)
  | .configure l => some (some l)
  | .configureDefault => some (some .notice)
  | .configureFrom l => l.map some
  | .reset => some none
  | .emit _ | .emitFrom _ _ => none

/-- The decisions that some commands made, in order. -/
def decisions (cmds : List Command) : List (Option Level) := cmds.filterMap Command.decision

/-- The level at which records are written after some commands, if any are: the last decision, or notice. -/
def decided (cmds : List Command) : Option Level := (decisions cmds).getLast?.getD (some .notice)

/-- The level asked for last, or notice. -/
def asked (cmds : List Command) : Level := ((decisions cmds).filterMap id).getLast?.getD .notice

theorem decided_concat (cmds : List Command) (cmd : Command) :
    decided (cmds ++ [cmd]) = cmd.decision.getD (decided cmds) := by
  simp only [decided, decisions, List.filterMap_append]
  cases h : cmd.decision with
  | none => simp [h]
  | some d => simp [h]

theorem asked_concat (cmds : List Command) (cmd : Command) :
    asked (cmds ++ [cmd]) = cmd.decision.join.getD (asked cmds) := by
  simp only [asked, decisions, List.filterMap_append]
  rcases h : cmd.decision with _ | _ | l <;> simp [h]

/-- A command that decides something is obeyed, and every other one leaves what was decided. -/
theorem Phase.obeys (h : Phase c) (cmd : Command) :
    (c.step cmd).1.enabled = (cmd.decision.map Option.isSome).getD c.enabled ∧
      (c.step cmd).1.threshold = cmd.decision.join.getD c.threshold := by
  obtain ⟨-, -, enabled, threshold⟩ := h.ready
  cases cmd with
  | configure l => exact ⟨rfl, rfl⟩
  | configureDefault => exact ⟨rfl, rfl⟩
  | configureFrom l => cases l <;> exact ⟨rfl, rfl⟩
  | reset =>
    simp only [Console.step, Console.reset, h.removeSink]
    exact ⟨rfl, rfl⟩
  | emit r => exact ⟨enabled, threshold⟩
  | emitFrom t r =>
    simp only [Console.step, emitFrom]
    split
    · exact ⟨enabled, threshold⟩
    · exact ⟨rfl, rfl⟩

/-- Once something was decided the console counts as configured. -/
theorem Phase.configured_step (h : Phase c) {cmd : Command}
    (decided : c.configured = true ∨ cmd.decision.isSome = true) : (c.step cmd).1.configured = true := by
  cases cmd with
  | configure l => rfl
  | configureDefault => rfl
  | configureFrom l =>
    cases l with
    | none => exact decided.resolve_right Bool.false_ne_true
    | some l => rfl
  | reset => rfl
  | emit r => exact h.ready.2.1
  | emitFrom t r =>
    simp only [Console.step, emitFrom]
    split
    · exact h.ready.2.1
    · exact decided.resolve_right Bool.false_ne_true

theorem enabled_run (cmds : List Command) : (initial.run cmds).enabled = (decided cmds).isSome := by
  induction cmds using List.reverseRecOn with
  | nil => rfl
  | append_singleton cmds cmd ih =>
    rw [run_concat, ((phase_run cmds).obeys cmd).1, decided_concat, ih]
    cases cmd.decision <;> rfl

theorem threshold_run (cmds : List Command) : (initial.run cmds).threshold = asked cmds := by
  induction cmds using List.reverseRecOn with
  | nil => rfl
  | append_singleton cmds cmd ih => rw [run_concat, ((phase_run cmds).obeys cmd).2, asked_concat, ih]

theorem configured_run {cmd : Command} (mem : cmd ∈ cmds) (decides : cmd.decision.isSome = true) :
    (initial.run cmds).configured = true := by
  induction cmds using List.reverseRecOn with
  | nil => cases mem
  | append_singleton cmds last ih =>
    rw [run_concat]
    rcases List.mem_append.mp mem with before | now
    · exact (phase_run cmds).configured_step (.inl (ih before))
    · cases List.mem_singleton.mp now
      exact (phase_run cmds).configured_step (.inr decides)

/-! ### Whole runs -/

/-- What is true of a console after some commands, and of what it writes next. -/
structure Account (cmds : List Command) (c : Console) : Prop where
  /-- A record is written once if logging is enabled and its level reaches the threshold, and otherwise not at all. -/
  emit : ∀ r, (c.step (.emit r)).2 = if c.enabled = true ∧ c.threshold ≤ r.level then [r] else []
  /-- A record with a threshold of its own must reach that as well. -/
  emitFrom : ∀ t r, (c.step (.emitFrom t r)).2 =
    if t ≤ r.level ∧ c.enabled = true ∧ c.threshold ≤ r.level then [r] else []
  /-- What is written is one line, unless the text has line ends. -/
  line : ∀ r : Record, '\n' ∉ r.text.toList → lines [r] = [r.written]
  /-- Only records are written. -/
  others : ∀ cmd, (∀ r, cmd ≠ .emit r) → (∀ t r, cmd ≠ .emitFrom t r) → (c.step cmd).2 = []
  /-- However often the console is configured, there is one sink at most, and one when a record is passed on. -/
  sinks : c.sinks.length ≤ 1 ∧ (c.enabled = true → c.ready.sinks.length = 1)
  /-- Logging is enabled unless the last decision was to reset. -/
  enabled : c.enabled = (decided cmds).isSome
  /-- The threshold is the one asked for last, also after a reset. -/
  threshold : c.threshold = asked cmds
  /-- After a decision the use of the logger installs no sink and removes none. -/
  use : ∀ cmd ∈ cmds, cmd.decision.isSome = true → ∀ r, (c.step (.emit r)).1 = { c with used := true }
  /-- Options without a level change nothing. -/
  unasked : c.step (.configureFrom none) = (c, [])

/-- From process start on, whatever is asked of the console and in whatever order, a record is written once if logging
    is enabled and its level reaches the threshold last asked for. -/
theorem account_run (cmds : List Command) : Account cmds (initial.run cmds) where
  emit := (phase_run cmds).written
  emitFrom t r := by
    have once := (phase_run cmds).written r
    by_cases reaches : t ≤ r.level
    · simpa only [step, Console.emitFrom, reaches, ↓reduceIte, true_and] using once
    · simp only [step, Console.emitFrom, reaches, ↓reduceIte, false_and]
  line r h := by rw [lines, List.flatMap_singleton, Record.lines_of_not_mem h]
  others cmd emit emitFrom := by
    cases cmd with
    | emit r => exact absurd rfl (emit r)
    | emitFrom t r => exact absurd rfl (emitFrom t r)
    | _ => rfl
  sinks := (phase_run cmds).sinks
  enabled := enabled_run cmds
  threshold := threshold_run cmds
  use cmd mem decides r := ready_of_configured (configured_run mem decides)
  unasked := rfl

end Console
end Accessors
