import Accessors.Log.Record
import Accessors.Scope
import Accessors.Shape
import Mathlib.Data.List.Basic
import Mathlib.Data.List.TakeWhile

/-! # Values read back from a text

Values that are written into a text, with blanks between them, are read back from it. Whatever the text is, reading
goes through its words: it gives the values that they name, and it ends with the text or at the first word that names
none. -/

namespace Accessors

/-! ### The words of a text -/

/-- The words of a text are what stands between its blanks, where that is not nothing. -/
def words (text : List Char) : List String :=
  ((text.splitOnP isBlank).filter (!·.isEmpty)).map String.ofList

/-- A text of nothing but blanks. -/
def Blank (text : List Char) : Prop := ∀ c ∈ text, isBlank c = true

/-- A text that is one word. -/
structure Solid (w : List Char) : Prop where
  filled : w ≠ []
  unbroken : ∀ c ∈ w, isBlank c = false

instance (w : List Char) : Decidable (Solid w) :=
  decidable_of_iff (w ≠ [] ∧ w.all (!isBlank ·) = true)
    ⟨fun ⟨filled, unbroken⟩ => ⟨filled, by simpa using unbroken⟩, fun h => ⟨h.filled, by simpa using h.unbroken⟩⟩

variable {text s w rest : List Char} {c : Char}

@[simp] theorem words_nil : words [] = [] := rfl

/-- A blank separates the words before it from those after it. -/
theorem words_append_cons (h : isBlank c = true) (s text : List Char) :
    words (s ++ c :: text) = words s ++ words text := by
  simp only [words, List.splitOnP_append_cons s text h, List.filter_append, List.map_append]

@[simp] theorem words_cons (h : isBlank c = true) (text : List Char) : words (c :: text) = words text :=
  words_append_cons h [] text

theorem words_append_space (s t : String) : words (s ++ " " ++ t).toList = words s.toList ++ words t.toList := by
  rw [String.append_assoc, String.toList_append, String.toList_append]
  exact words_append_cons rfl _ _

theorem words_append_of_blank (h : Blank s) (text : List Char) : words (s ++ text) = words text := by
  induction s with
  | nil => rfl
  | cons c s ih =>
    obtain ⟨here, later⟩ := List.forall_mem_cons.mp h
    rw [List.cons_append, words_cons here, ih later]

theorem Solid.words_eq (h : Solid w) : words w = [String.ofList w] := by
  simp [words, List.splitOnP_eq_singleton h.unbroken, h.filled]

/-- The first word of a text is what stands before its end or its first blank. -/
theorem Solid.words_append (h : Solid w) (apart : ∀ c ∈ rest.head?, isBlank c = true) :
    words (w ++ rest) = String.ofList w :: words rest := by
  cases rest with
  | nil => rw [List.append_nil, h.words_eq, words_nil]
  | cons c rest =>
    have blank : isBlank c = true := apart c rfl
    rw [words_append_cons blank, h.words_eq, List.singleton_append, words_cons blank]

/-! ### The next word -/

theorem words_dropWhile (text : List Char) : words (text.dropWhile isBlank) = words text := by
  have blank : Blank (text.takeWhile isBlank) := fun _ => List.mem_takeWhile_imp
  rw [← words_append_of_blank blank, List.takeWhile_append_dropWhile]

theorem words_of_nextWord?_eq_none (h : nextWord? text = none) : words text = [] := by
  unfold nextWord? at h
  split at h
  next skipped => rw [← words_dropWhile, skipped, words_nil]
  · cases h

theorem words_of_nextWord?_eq_some (h : nextWord? text = some (w, rest)) :
    words text = String.ofList w :: words rest := by
  unfold nextWord? at h
  split at h
  · cases h
  next c after skipped =>
    cases h
    have here : isBlank c = false := by
      simpa [skipped] using List.head?_dropWhile_not isBlank text
    -- The text after the skipped blanks is a word and then the end or a blank.
    have solid : Solid (c :: after.takeWhile (!isBlank ·)) :=
      ⟨List.cons_ne_nil _ _, List.forall_mem_cons.mpr ⟨here, fun d hd => by simpa using List.mem_takeWhile_imp hd⟩⟩
    have apart : ∀ d ∈ (after.dropWhile (!isBlank ·)).head?, isBlank d = true := by
      intro d hd
      have := List.head?_dropWhile_not (!isBlank ·) after
      rw [Option.mem_def.mp hd] at this
      simpa using this
    rw [← solid.words_append apart, List.cons_append, List.takeWhile_append_dropWhile, ← skipped, words_dropWhile]

/-! ### Names that can be told apart -/

/-- A word is read as the value of that name and as no other, and a name is one word. -/
class LawfulNamed (α : Type) [Named α] : Prop where
  ofName?_name (a : α) : Named.ofName? (Named.name a) = some a
  name_of_ofName? {word : String} {a : α} (h : Named.ofName? word = some a) : Named.name a = word
  solid (a : α) : Solid (Named.name a).toList

theorem name_of_find? {α : Type} {name : α → String} {all : List α} {word : String} {a : α}
    (h : all.find? (name · == word) = some a) : name a = word := by
  have found := List.find?_some (p := (name · == word)) h
  exact beq_iff_eq.mp found

instance : LawfulNamed Flavor where
  ofName?_name a := by cases a <;> rfl
  name_of_ofName? := name_of_find?
  solid a := by cases a <;> decide

instance : LawfulNamed Shape where
  ofName?_name a := by cases a <;> rfl
  name_of_ofName? := name_of_find?
  solid a := by cases a <;> decide

theorem Scope.name_of_ofName? {word : String} {s : Scope} (h : ofName? word = some s) : s.name = word := by
  unfold ofName? at h
  split at h <;> cases h <;> rfl

instance : LawfulNamed Scope where
  ofName?_name s := by cases s <;> rfl
  name_of_ofName? := Scope.name_of_ofName?
  solid s := by cases s <;> decide

theorem Level.name_of_ofName? {word : String} {l : Level} (h : ofName? word = some l) : l.name = word := by
  unfold ofName? at h
  split at h <;> cases h <;> rfl

instance : LawfulNamed Level where
  ofName?_name l := by cases l <;> rfl
  name_of_ofName? := Level.name_of_ofName?
  solid l := by cases l <;> decide

namespace Named
variable {α : Type}

/-! ### Written values -/

/-- Values that go into a text, each with what follows it: only blanks stand around them, and at least one between two
    of them. -/
structure Spaced (front : List Char) (as : List (α × List Char)) : Prop where
  front : Blank front
  after : ∀ p ∈ as, Blank p.2
  apart : ∀ p ∈ as.dropLast, p.2 ≠ []

variable {front sep : List Char} {a : α} {as : List (α × List Char)}

theorem Spaced.tail (h : Spaced front ((a, sep) :: as)) : Spaced sep as where
  front := h.after _ List.mem_cons_self
  after p hp := h.after p (List.mem_cons_of_mem _ hp)
  apart p hp := by
    cases as with
    | nil => cases hp
    | cons q as => exact h.apart p (List.mem_cons_of_mem _ hp)

variable [Named α]

/-- The text with some values written into it, each by its name. -/
def written (front : List Char) (as : List (α × List Char)) : List Char :=
  front ++ as.flatMap fun p => (name p.1).toList ++ p.2

/-- What follows a written value is a blank or the end. -/
theorem Spaced.blank_head (h : Spaced front ((a, sep) :: as)) : ∀ c ∈ (written sep as).head?, isBlank c = true := by
  intro c hc
  cases sep with
  | nil =>
    cases as with
    | nil => cases hc
    | cons q as => exact absurd rfl (h.apart (a, []) List.mem_cons_self)
  | cons d sep =>
    obtain rfl : d = c := Option.some.inj hc
    exact h.tail.front d List.mem_cons_self

theorem words_written [LawfulNamed α] (h : Spaced front as) :
    words (written front as) = (as.map Prod.fst).map name := by
  induction as generalizing front with
  | nil => simpa [written] using words_append_of_blank h.front []
  | cons p as ih =>
    obtain ⟨a, sep⟩ := p
    calc words (written front ((a, sep) :: as))
      _ = words ((name a).toList ++ written sep as) := by
        simp only [written, words_append_of_blank h.front, List.flatMap_cons, List.append_assoc]
      _ = name a :: words (written sep as) := by
        rw [(LawfulNamed.solid a).words_append h.blank_head, String.ofList_toList]
      _ = name a :: (as.map Prod.fst).map name := by rw [ih h.tail]

/-! ### One value -/

/-- What the reading of one value comes to, by the words of the text. -/
inductive Extracts (text : List Char) : Extraction α → Prop where
  | ended (none : words text = []) : Extracts text .ended
  | value {a : α} {rest : List Char} (named : words text = name a :: words rest) : Extracts text (.value a rest)
  | rejected {w : String} {ws : List String} (next : words text = w :: ws) (unknown : ∀ a : α, name a ≠ w) :
      Extracts text (.rejected ⟨kind α, w⟩)

variable [LawfulNamed α]

theorem name_injective : Function.Injective (name : α → String) := by
  intro a b same
  have found : some a = some b := by rw [← LawfulNamed.ofName?_name a, same, LawfulNamed.ofName?_name]
  exact Option.some.inj found

theorem words_name (a : α) : words (name a).toList = [name a] := by
  rw [(LawfulNamed.solid a).words_eq, String.ofList_toList]

/-- A text begins with one name at most, and ends with one at most, where a blank sets it apart. -/
theorem name_append_inj {b : α} {s t : String} (h : name a ++ " " ++ s = name b ++ " " ++ t) : a = b ∧ s = t := by
  have same : a = b := by
    have firsts : [name a] ++ words s.toList = [name b] ++ words t.toList := by
      simpa only [words_append_space, words_name] using congrArg (fun s => words s.toList) h
    exact name_injective (List.cons.inj firsts).1
  subst same
  exact ⟨rfl, (String.append_right_inj _).mp h⟩

theorem append_name_inj {b : α} {s t : String} (h : s ++ " " ++ name a = t ++ " " ++ name b) : s = t ∧ a = b := by
  have same : a = b := by
    have lasts : words s.toList ++ [name a] = words t.toList ++ [name b] := by
      simpa only [words_append_space, words_name] using congrArg (fun s => words s.toList) h
    exact name_injective (List.cons.inj (List.append_inj' lasts rfl).2).1
  subst same
  exact ⟨(String.append_left_inj _).mp ((String.append_left_inj _).mp h), rfl⟩

theorem extracts {x : Extraction α} (h : extract text = x) : Extracts text x := by
  subst h
  unfold extract
  split
  next none => exact .ended (words_of_nextWord?_eq_none none)
  next w rest next =>
    have named := words_of_nextWord?_eq_some next
    unfold ofName
    cases found : (ofName? (String.ofList w) : Option α) with
    | some a =>
      rw [← LawfulNamed.name_of_ofName? found] at named
      exact .value named
    | none =>
      refine .rejected named fun a same => ?_
      rw [← same, LawfulNamed.ofName?_name] at found
      cases found

/-! ### The whole text -/

/-- How a reading ends, by the words that it gave no values for: there are none, or the first of them names no value and
    is quoted in the complaint. -/
inductive Ends (α : Type) [Named α] : List String → Option UnknownName → Prop where
  | done : Ends α [] none
  | rejected {w : String} {u : UnknownName} (ws : List String) (unknown : ∀ a : α, name a ≠ w)
      (quoted : u.message = "not a valid " ++ kind α ++ ": \"" ++ w ++ "\"") : Ends α (w :: ws) (some u)

/-- A reading gives the values that the words of a text name, up to the end or the first word that names none. At the
    end the last of them is held, or without any the one that was held before. -/
structure Reads (held : α) (text : List Char) (r : Reading α) : Prop where
  values : ∃ ws, words text = r.values.map name ++ ws ∧ Ends α ws r.rejected
  last : r.last = r.values.getLastD held

/-- By induction along the text, one value at a time. -/
theorem reads (held : α) (text : List Char) : Reads held text (readFrom held text) := by
  fun_induction readFrom held text with
  | case1 held text next =>
    cases extracts next with
    | ended none => exact ⟨⟨[], none, .done⟩, rfl⟩
  | case2 held text u next =>
    cases extracts next with
    | rejected word unknown => exact ⟨⟨_, word, .rejected _ unknown rfl⟩, rfl⟩
  | case3 held text a rest next r ih =>
    cases extracts next with
    | value named =>
      obtain ⟨ws, left, ends⟩ := ih.values
      refine ⟨⟨ws, ?_, ends⟩, ih.last.trans (List.getLastD_cons ..).symm⟩
      rw [named, left]
      rfl

/-- Words that are names are read as the values with these names. -/
theorem Reads.eq_of_names {held : α} {text : List Char} {r : Reading α} {as : List α} (h : Reads held text r)
    (names : words text = as.map name) : r = ⟨as, none, as.getLastD held⟩ := by
  obtain ⟨values, rejected, last⟩ := r
  obtain ⟨⟨ws, split, ends⟩, held_last⟩ := h
  obtain ⟨bs, cs, rfl, named, rfl⟩ := List.map_eq_append_iff.mp (names.symm.trans split)
  obtain rfl : bs = values := List.map_injective_iff.mpr name_injective named
  obtain rfl : last = bs.getLastD held := held_last
  cases cs with
  | nil =>
    cases ends
    rw [List.append_nil]
  | cons c cs =>
    cases ends with
    | rejected _ unknown _ => exact absurd rfl (unknown c)

end Named

/-- The values of an enumeration can be written into a text and read from it. -/
structure ReadsBack (α : Type) [Named α] : Prop where
  /-- What is written is read back, whatever blanks there are. -/
  written : ∀ (held : α) (front : List Char) (as : List (α × List Char)), Named.Spaced front as →
    Named.readFrom held (Named.written front as) = ⟨as.map Prod.fst, none, (as.map Prod.fst).getLastD held⟩
  /-- Any text is read up to the end or the first word that names no value. -/
  any : ∀ (held : α) (text : List Char), Named.Reads held text (Named.readFrom held text)

theorem readsBack (α : Type) [Named α] [LawfulNamed α] : ReadsBack α where
  any := Named.reads
  written held _ _ h := (Named.reads held _).eq_of_names (Named.words_written h)

/-- Each enumeration that is written into texts is read back from them. -/
theorem enumerations_readBack : ReadsBack Flavor ∧ ReadsBack Shape ∧ ReadsBack Scope ∧ ReadsBack Level :=
  ⟨readsBack Flavor, readsBack Shape, readsBack Scope, readsBack Level⟩

example : (Named.read " optional_of_shared\n\toptional optiona plain" : Reading Shape) =
    ⟨[.optionalOfShared, .optional], some ⟨"wrapper shape", "optiona"⟩, .optional⟩ := by
  decide +kernel

end Accessors
