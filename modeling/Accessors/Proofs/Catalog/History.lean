import Accessors.Classification
import Mathlib.Data.List.Induction

/-! # The catalog over time

A catalog is edited and used for classification, in any order. A name has the entry that the last successful edit of
it stored. An alias stores the entry that its target has when the alias is made, so what happens to the target later
makes no difference to it. An edit that fails leaves no trace, and neither does a classification. -/

namespace Accessors.Catalog

/-! ### Calls -/

/-- A catalog is edited, or a type is classified by it. -/
inductive Call where
  | edit (e : Edit)
  | classify (config : Config) (t : TypeExpr)

/-- What a call ends with. -/
inductive Answer where
  | edited
  | refused (u : UnknownTarget)
  | classified (c : Planning Classification)

/-- The catalog after a call, and the answer. -/
def call (c : Catalog) : Call → Catalog × Answer
  | .edit e =>
    match c.edit e with
    | .ok d => (d, .edited)
    | .error u => (c, .refused u)
  | .classify config t => (c, .classified (Accessors.classify c config t))

/-- The catalog after some calls, whether they fail or not. -/
def after (c : Catalog) (us : List Call) : Catalog := us.foldl (fun c u => (c.call u).1) c

/-- A call gives a name an entry: an insertion the one it comes with, and an alias the one that the target has. -/
inductive Stores (c : Catalog) (n : String) : Call → Entry → Prop where
  | insert (e : Entry) : Stores c n (.edit (.insert n e)) e
  | aliasTo {t : String} {e : Entry} (target : c.find? t = some e) : Stores c n (.edit (.aliasTo n t)) e

/-- None of some calls gives the name an entry. -/
def Unedited (c : Catalog) (n : String) (us : List Call) : Prop :=
  ∀ pre u post, us = pre ++ u :: post → ∀ e, ¬Stores (c.after pre) n u e

/-- What a name has after some calls: the entry that the last successful edit of the name stored, or without one what
    it had at the start. -/
inductive LastStored (start : Catalog) (n : String) (us : List Call) : Option Entry → Prop where
  | start (unedited : Unedited start n us) : LastStored start n us (start.find? n)
  | edit {pre post : List Call} {u : Call} {e : Entry} (split : us = pre ++ u :: post)
      (stores : Stores (start.after pre) n u e) (last : Unedited (start.after (pre ++ [u])) n post) :
      LastStored start n us (some e)

variable {c start : Catalog} {n t : String} {u : Call} {us vs : List Call} {e : Entry} {o : Option Entry}

/-! ### One call -/

theorem find?_call_of_stores (h : Stores c n u e) : (c.call u).1.find? n = some e := by
  cases h with
  | insert e => exact (find?_insert c n n e).trans (if_pos rfl)
  | aliasTo target =>
    simp only [call, Catalog.edit, Catalog.aliasTo, target]
    exact (find?_insert c n n e).trans (if_pos rfl)

theorem find?_call_of_not_stores (h : ∀ e, ¬Stores c n u e) : (c.call u).1.find? n = c.find? n := by
  cases u with
  | classify config t => rfl
  | edit e =>
    cases e with
    | insert m e =>
      have other : n ≠ m := fun same => h e (same ▸ .insert e)
      exact (find?_insert c m n e).trans (if_neg other)
    | aliasTo m t =>
      cases target : c.find? t with
      | none => simp only [call, Catalog.edit, Catalog.aliasTo, target]
      | some e =>
        have other : n ≠ m := fun same => h e (same ▸ .aliasTo target)
        simp only [call, Catalog.edit, Catalog.aliasTo, target]
        exact (find?_insert c m n e).trans (if_neg other)

/-- Only an alias to a name that the catalog does not have is refused. -/
theorem answer_eq_refused_iff {r : UnknownTarget} :
    (c.call u).2 = .refused r ↔ ∃ n t, u = .edit (.aliasTo n t) ∧ c.find? t = none ∧ r = ⟨n, t⟩ := by
  cases u with
  | classify config t => simp [call]
  | edit e =>
    cases e with
    | insert m e => simp [call, Catalog.edit]
    | aliasTo m t =>
      cases target : c.find? t with
      | none => simp [call, Catalog.edit, Catalog.aliasTo, target, eq_comm]
      | some e => simp [call, Catalog.edit, Catalog.aliasTo, target]

theorem call_of_refused {r : UnknownTarget} (h : (c.call u).2 = .refused r) : (c.call u).1 = c := by
  obtain ⟨n, t, rfl, unknown, -⟩ := answer_eq_refused_iff.mp h
  simp only [call, Catalog.edit, Catalog.aliasTo, unknown]

/-! ### All calls -/

theorem after_append (c : Catalog) (us vs : List Call) : c.after (us ++ vs) = (c.after us).after vs :=
  List.foldl_append

theorem after_concat (c : Catalog) (us : List Call) (u : Call) : c.after (us ++ [u]) = ((c.after us).call u).1 :=
  after_append c us [u]

theorem after_cons (c : Catalog) (us vs : List Call) (u : Call) :
    c.after (us ++ u :: vs) = (c.after (us ++ [u])).after vs := by
  rw [← after_append, List.append_assoc, List.singleton_append]

theorem unedited_nil : Unedited c n [] := fun pre u post h => by simp at h

theorem unedited_concat_iff : Unedited c n (us ++ [u]) ↔ Unedited c n us ∧ ∀ e, ¬Stores (c.after us) n u e := by
  constructor
  · intro h
    refine ⟨fun pre v post split => h pre v (post ++ [u]) ?_, h us u [] rfl⟩
    rw [split, List.append_assoc, List.cons_append]
  · rintro ⟨before, here⟩ pre v post split
    -- The call that is split off is the last one, or it is one of the earlier ones.
    rcases List.eq_nil_or_concat post with rfl | ⟨post, w, rfl⟩
    · obtain ⟨rfl, last⟩ := List.append_inj' split rfl
      cases last
      exact here
    · rw [List.concat_eq_append, ← List.cons_append, ← List.append_assoc] at split
      exact before pre v post (List.append_inj' split rfl).1

/-- A name that is not edited keeps what it has. -/
theorem find?_after_of_unedited (h : Unedited c n us) : (c.after us).find? n = c.find? n := by
  induction us using List.reverseRecOn with
  | nil => rfl
  | append_singleton us u ih =>
    obtain ⟨before, here⟩ := unedited_concat_iff.mp h
    rw [after_concat, find?_call_of_not_stores here, ih before]

theorem find?_after_of_lastStored (h : LastStored start n us o) : (start.after us).find? n = o := by
  cases h with
  | start unedited => exact find?_after_of_unedited unedited
  | edit split stores last =>
    rw [split, after_cons, find?_after_of_unedited last, after_concat, find?_call_of_stores stores]

/-- By induction on the calls from the last one on, which is the last edit, or comes after it. -/
theorem exists_lastStored (start : Catalog) (n : String) (us : List Call) : ∃ o, LastStored start n us o := by
  induction us using List.reverseRecOn with
  | nil => exact ⟨_, .start unedited_nil⟩
  | append_singleton us u ih =>
    by_cases here : ∃ e, Stores (start.after us) n u e
    · obtain ⟨e, stores⟩ := here
      exact ⟨some e, .edit rfl stores unedited_nil⟩
    · have here : ∀ e, ¬Stores (start.after us) n u e := not_exists.mp here
      obtain ⟨o, last⟩ := ih
      cases last with
      | start unedited => exact ⟨_, .start (unedited_concat_iff.mpr ⟨unedited, here⟩)⟩
      | @edit pre post v e split stores later =>
        have split' : us ++ [u] = pre ++ v :: (post ++ [u]) := by rw [split, List.append_assoc, List.cons_append]
        refine ⟨some e, .edit split' stores (unedited_concat_iff.mpr ⟨later, ?_⟩)⟩
        rwa [← after_cons, ← split]

theorem find?_after_eq_iff : (start.after us).find? n = o ↔ LastStored start n us o := by
  constructor
  · rintro rfl
    obtain ⟨o, last⟩ := exists_lastStored start n us
    rwa [find?_after_of_lastStored last]
  · exact find?_after_of_lastStored

/-- What the look-ups of a catalog have to do with its history, from a given start on. -/
structure Remembers (start : Catalog) : Prop where
  /-- A name has what the last successful edit of it stored. -/
  lookups : ∀ us n o, (start.after us).find? n = o ↔ LastStored start n us o
  /-- An alias has the entry that its target had, until the alias itself is edited again. -/
  snapshot : ∀ us n t e vs, (start.after us).find? t = some e →
    Unedited (start.after (us ++ [.edit (.aliasTo n t)])) n vs →
    (start.after (us ++ .edit (.aliasTo n t) :: vs)).find? n = some e
  /-- An alias is refused if the catalog does not have the target, and no other call is. -/
  refused : ∀ us u r, ((start.after us).call u).2 = .refused r ↔
    ∃ n t, u = .edit (.aliasTo n t) ∧ (start.after us).find? t = none ∧ r = ⟨n, t⟩
  /-- What is refused leaves no trace. -/
  untraced : ∀ us u r vs, ((start.after us).call u).2 = .refused r →
    start.after (us ++ u :: vs) = start.after (us ++ vs)
  /-- A classification leaves no trace, whether it succeeds or not. -/
  classified : ∀ us config t vs, start.after (us ++ .classify config t :: vs) = start.after (us ++ vs)

theorem remembers (start : Catalog) : Remembers start where
  lookups _ _ _ := find?_after_eq_iff
  snapshot _ _ _ _ _ target unedited := find?_after_eq_iff.mpr (.edit rfl (.aliasTo target) unedited)
  refused _ _ _ := answer_eq_refused_iff
  untraced us u r vs h := by rw [after_cons, after_concat, call_of_refused h, after_append]
  classified us config t vs := by
    rw [after_cons, after_concat, after_append]
    rfl

/-- An alias keeps what it has when its target changes, when it is aliased to a name that is not there, and when it is
    aliased to itself. -/
example :
    (standard.after [.edit (.aliasTo "app::Opt" "std::optional"),
      .edit (.insert "std::optional" { shape := .sequence }), .edit (.aliasTo "app::Opt" "app::Absent"),
      .edit (.aliasTo "app::Opt" "app::Opt")]).find? "app::Opt" = some { shape := .optional } := by
  decide +kernel

end Accessors.Catalog
