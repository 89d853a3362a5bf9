import Accessors.Proofs.Accessor.Compose
import Accessors.Proofs.Wrapper.Found
import Accessors.Member
import Accessors.Query
import Accessors.Sample.Criterion
import Mathlib.Data.List.Induction

/-! # What a query answers

A query is changed by filters, limits and offsets in any order. Only the last limit and the last offset count, and all
of the filters do. The one pass over the sequence then comes to three steps: the first items are skipped, those that
fail a test are left out, and what remains is cut at the limit. The other questions look at the same items. -/

namespace Accessors.Query
variable {R V : Ty} {α : Type}

/-! ### Changes -/

/-- One change of a query. -/
inductive Edit where
  | filter (test : Value → Bool)
  | limit (n : Nat)
  | offset (n : Nat)

namespace Edit

def test? : Edit → Option (Value → Bool)
  | filter test => some test
  | _ => none

def limit? : Edit → Option Nat
  | limit n => some n
  | _ => none

def offset? : Edit → Option Nat
  | offset n => some n
  | _ => none

/-- The tests that some changes add. -/
def tests (es : List Edit) : List (Value → Bool) := es.filterMap test?

/-- The last limit that some changes set. -/
def lastLimit? (es : List Edit) : Option Nat := (es.filterMap limit?).getLast?

def lastOffset? (es : List Edit) : Option Nat := (es.filterMap offset?).getLast?

end Edit

/-- The query after a change. -/
def edit (q : Query R V) : Edit → Query R V
  | .filter test => q.filter test
  | .limit n => q.limit n
  | .offset n => q.offset n

def editAll (q : Query R V) (es : List Edit) : Query R V := es.foldl edit q

theorem editAll_concat (q : Query R V) (es : List Edit) (e : Edit) : q.editAll (es ++ [e]) = (q.editAll es).edit e := by
  simp only [editAll, List.foldl_append, List.foldl_cons, List.foldl_nil]

/-- What was set before counts only where no change sets it again. -/
theorem editAll_eq (q : Query R V) (es : List Edit) : q.editAll es =
    { q with
      filters := q.filters ++ Edit.tests es
      skip := (Edit.lastOffset? es).getD q.skip
      cap := (Edit.lastLimit? es).or q.cap } := by
  induction es using List.reverseRecOn with
  | nil => simp [editAll, Edit.tests, Edit.lastOffset?, Edit.lastLimit?]
  | append_singleton es e ih =>
    rw [editAll_concat, ih]
    cases e <;> simp [edit, filter, limit, offset, Edit.tests, Edit.lastOffset?, Edit.lastLimit?, Edit.test?,
      Edit.limit?, Edit.offset?]

/-! ### One pass -/

/-- A list cut at a limit, if there is one. -/
def atMost (cap : Option Nat) (xs : List α) : List α := cap.elim xs xs.take

@[simp] theorem atMost_nil (cap : Option Nat) : atMost cap ([] : List α) = [] := by
  cases cap <;> simp [atMost]

theorem atMost_of_full {cap : Option Nat} {taken : Nat} (full : cap.any (· ≤ taken) = true) (xs : List α) :
    atMost (cap.map (· - taken)) xs = [] := by
  cases cap with
  | none => cases full
  | some n =>
    have spent : n - taken = 0 := Nat.sub_eq_zero_of_le (of_decide_eq_true full)
    simp [atMost, spent]

theorem atMost_cons_of_room {cap : Option Nat} {taken : Nat} (room : ¬cap.any (· ≤ taken) = true) (x : α)
    (xs : List α) : atMost (cap.map (· - taken)) (x :: xs) = x :: atMost (cap.map (· - (taken + 1))) xs := by
  cases cap with
  | none => rfl
  | some n =>
    have left : n - taken = (n - (taken + 1)) + 1 := by
      have := of_decide_eq_false (Bool.not_eq_true _ ▸ room)
      omega
    simp [atMost, left]

/-- A pass that has seen `index` items and kept `taken` of them still skips, tests and cuts those that follow. -/
theorem scan_eq (q : Query R V) (cap : Option Nat) (s : Store) (ps : List Place) (index taken : Nat) :
    q.scan cap s ps index taken = atMost (cap.map (· - taken))
      ((ps.drop (q.skip - index)).filter fun p => q.accepts (s.value p)) := by
  induction ps generalizing index taken with
  | nil => simp [scan]
  | cons p ps ih =>
    rw [scan]
    split
    · rename_i full
      rw [atMost_of_full full]
    · rename_i room
      split
      · rename_i skipped
        have step : q.skip - index = (q.skip - (index + 1)) + 1 := by omega
        rw [ih, step, List.drop_succ_cons]
      · rename_i seen
        have here : q.skip - index = 0 := by omega
        have later : q.skip - (index + 1) = 0 := by omega
        simp only [ih, here, later, List.drop_zero, List.filter_cons]
        split
        · rw [atMost_cons_of_room room]
        · rfl

/-! ### Answers -/

theorem map_atMost {β : Type} (cap : Option Nat) (f : α → β) (xs : List α) :
    (atMost cap xs).map f = atMost cap (xs.map f) := by
  cases cap with
  | none => rfl
  | some n => exact List.map_take

/-- The first item that is kept does not depend on the limit, unless that is zero. -/
theorem head?_atMost_one (cap : Option Nat) (xs : List α) :
    (atMost (some ((cap.getD 1).min 1)) xs).head? = (atMost cap xs).head? := by
  cases xs with
  | nil => simp
  | cons x xs =>
    rcases cap with _ | _ | n
    · rfl
    · rfl
    · simp [atMost]

/-- The places of the items of what an accessor found. -/
def reached (s : Store) (found : Option Place) : List Place := found.elim [] (items s)

theorem map_value_items (s : Store) (p : Place) : (items s p).map s.value = s.items p := by
  refine List.ext_getElem (by simp [items]) fun i hi hi' => ?_
  simp only [items, List.getElem_map, List.getElem_range, s.value_item, ← s.items_eq, List.getElem?_eq_getElem hi',
    Option.getD_some]

/-- What some changes pick of some items: they skip the first ones, keep those whose value passes all tests, and cut
    what is left. -/
def pick (es : List Edit) (value : α → Value) (xs : List α) : List α :=
  atMost (Edit.lastLimit? es)
    ((xs.drop ((Edit.lastOffset? es).getD 0)).filter fun x => (Edit.tests es).all fun test => test (value x))

theorem map_pick (es : List Edit) (value : α → Value) (xs : List α) :
    (pick es value xs).map value = pick es id (xs.map value) := by
  rw [pick, pick, map_atMost, ← List.map_drop, List.filter_map]
  rfl

/-- What a changed query finds under a limit of its own choice. -/
theorem select_editAll {e : Erased R V} {q : Query R V} (h : e.flavor.reads = true) (hq : ofErased? e = some q)
    (es : List Edit) (cap : Option Nat) (s : Store) (root : Place) :
    (q.editAll es).select cap s root = (e.path.find h s root).map fun found =>
      atMost cap (((reached s found).drop ((Edit.lastOffset? es).getD 0)).filter fun p =>
        (Edit.tests es).all fun test => test (s.value p)) := by
  rw [ofErased?, dif_pos h, Option.some.injEq] at hq
  subst hq
  rw [editAll_eq, select]
  refine congrArg _ (funext fun found => ?_)
  cases found with
  | none => simp [reached]
  | some p => simp [scan_eq, reached, accepts]

/-- What a query answers that was changed in some ways, given what its accessor finds. -/
structure Answers (q : Query R V) (es : List Edit) (find : Store → Place → Run (Option Place)) : Prop where
  execute : ∀ s root, q.execute s root = (find s root).map fun found => pick es s.value (reached s found)
  values : ∀ s root, (q.execute s root).map (·.map s.value) =
    (find s root).map fun found => pick es id (found.elim [] s.items)
  /-- Where nothing is found, nothing is picked. -/
  absent : ∀ s root, (find s root).outcome = .ok none → (q.execute s root).outcome = .ok []
  count : ∀ s root, q.count s root = (q.execute s root).map List.length
  first? : ∀ s root, q.first? s root = (q.execute s root).map List.head?
  any : ∀ s root, q.any s root = (q.execute s root).map fun ps => !ps.isEmpty

/-- There is a query over what any reading accessor finds. Changed by filters, limits and offsets in any order, it picks
    the items that pass all the tests, in order: from those after the last offset, and no more than the last limit. It
    counts them, finds the first of them and tells whether there are any. -/
theorem editAll_answers (e : Erased R V) (h : e.flavor.reads = true) (es : List Edit) :
    ∃ q, ofErased? e = some q ∧ (q.editAll es).Answers es (e.path.find h) := by
  obtain ⟨q, hq⟩ : ∃ q, ofErased? e = some q := ⟨_, dif_pos h⟩
  have cap : (q.editAll es).cap = Edit.lastLimit? es := by
    rw [ofErased?, dif_pos h, Option.some.injEq] at hq
    subst hq
    rw [editAll_eq, Option.or_none]
  have execute : ∀ s root, (q.editAll es).execute s root =
      (e.path.find h s root).map fun found => pick es s.value (reached s found) := fun s root => by
    rw [Query.execute, cap, select_editAll h hq]
    rfl
  have first : ∀ s root, (q.editAll es).first? s root = ((q.editAll es).execute s root).map List.head? :=
    fun s root => by
      rw [execute, Query.first?, cap, select_editAll h hq, Run.map_map, Run.map_map]
      exact congrArg (Run.map · _) (funext fun found => head?_atMost_one _ _)
  refine ⟨q, hq, execute, fun s root => ?_, fun s root none => ?_, fun s root => rfl, first, fun s root => ?_⟩
  · rw [execute, Run.map_map]
    refine congrArg (Run.map · _) (funext fun found => ?_)
    rw [map_pick]
    cases found with
    | none => rfl
    | some p => rw [reached, Option.elim_some, map_value_items, Option.elim_some]
  · rw [execute, Run.map_eq, none]
    simp [Except.map, reached, pick]
  · rw [Query.any, first, Run.map_map]
    refine congrArg (Run.map · _) (funext fun ps => ?_)
    cases ps <;> rfl

/-- The even scores from four on, without the first of all scores and two of them at most. -/
theorem editAll_answers_scores :
    ∃ (e : Erased (.plain "w::Department") (.wrap .vector (.plain "int"))) (h : e.flavor.reads = true) (q : Query _ _)
      (es : List Edit),
      e = .of (Member.fr ⟨"scores", 1, .wrap .shared (.wrap .vector (.plain "int")), .all⟩ _) ∧
      es = [.limit 5, .filter (Sample.Criterion.multiple 2).holds, .offset 1,
        .filter (Sample.Criterion.atLeast 4).holds, .limit 2] ∧
      ofErased? e = some q ∧ (q.editAll es).Answers es (e.path.find h) ∧
      (q.editAll es).execute ⟨[.items [.items [], .shared 0, .items []]],
        [.items [.int 2, .int 3, .int 4, .int 6, .int 8]], []⟩ (.slot 0) =
          .done [(Place.cell 0).item 2, (Place.cell 0).item 3] := by
  let e : Erased (.plain "w::Department") (.wrap .vector (.plain "int")) :=
    .of (Member.fr ⟨"scores", 1, .wrap .shared (.wrap .vector (.plain "int")), .all⟩ _)
  let es : List Edit := [.limit 5, .filter (Sample.Criterion.multiple 2).holds, .offset 1,
    .filter (Sample.Criterion.atLeast 4).holds, .limit 2]
  obtain ⟨q, hq, answers⟩ := editAll_answers e rfl es
  cases hq
  exact ⟨e, rfl, _, es, rfl, rfl, rfl, answers, rfl⟩

end Accessors.Query
