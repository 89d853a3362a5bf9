/-! # Named enumerations

An enumeration whose values are written as words. Reading one value takes the next word of a text and looks it up;
reading on goes through a text until it ends or a word names no value.

Blanks are the space and the five control characters from tab to carriage return. Every other
character, also one beyond ASCII, is part of a word. -/

namespace Accessors

/-- An enumeration with a written name for each value, and with a reader of such names. -/
class Named (α : Type) where
  /-- The value held before anything is read. -/
  first : α
  /-- The written name of a value. -/
  name : α → String
  /-- What a value is called in a complaint. -/
  kind : String
  /-- The value with the given written name. -/
  ofName? : String → Option α

/-- A word that names no value of an enumeration. -/
structure UnknownName where
  kind : String
  word : String
deriving DecidableEq, Repr

def UnknownName.message (u : UnknownName) : String :=
  "not a valid " ++ u.kind ++ ": \"" ++ u.word ++ "\""

/-- Blanks separate words. -/
def isBlank (c : Char) : Bool :=
  c == ' ' || ('\t' ≤ c && c ≤ '\r')

/-- The next word of a text and the text after it. Blanks in front are passed over, and the word goes on up to the next
    blank. A text of blanks has no word. -/
def nextWord? (text : List Char) : Option (List Char × List Char) :=
  match text.dropWhile isBlank with
  | [] => none
  | c :: rest => some (c :: rest.takeWhile (!isBlank ·), rest.dropWhile (!isBlank ·))

theorem length_lt_of_nextWord? {text w rest : List Char} (h : nextWord? text = some (w, rest)) :
    rest.length < text.length := by
  unfold nextWord? at h
  split at h
  · cases h
  next c after skipped =>
    cases h
    have passed := (text.dropWhile_sublist isBlank).length_le
    have left := (after.dropWhile_sublist (!isBlank ·)).length_le
    simp only [skipped, List.length_cons] at passed
    omega

/-- What the reading of one value comes to. -/
inductive Extraction (α : Type) where
  /-- There is no word to read. -/
  | ended
  /-- A value was named, and some text is left. -/
  | value (a : α) (rest : List Char)
  | rejected (u : UnknownName)
deriving DecidableEq, Repr

/-- What a text gave: the values that were read, the word that ended the reading if one named no value, and the value
    that is held at the end. -/
structure Reading (α : Type) where
  values : List α
  rejected : Option UnknownName
  last : α
deriving DecidableEq, Repr

namespace Named
variable {α : Type} [Named α]

/-- The value a word names, or the complaint about it. -/
def ofName (word : String) : Except UnknownName α :=
  match ofName? word with
  | some a => .ok a
  | none => .error ⟨kind α, word⟩

/-- The value that the next word of a text names. -/
def extract (text : List Char) : Extraction α :=
  match nextWord? text with
  | none => .ended
  | some (w, rest) =>
    match ofName (String.ofList w) with
    | .ok a => .value a rest
    | .error u => .rejected u

theorem length_lt_of_extract {text rest : List Char} {a : α} (h : extract text = .value a rest) :
    rest.length < text.length := by
  unfold extract at h
  split at h
  · cases h
  next w after next =>
    split at h
    · cases h
      exact length_lt_of_nextWord? next
    · cases h

/-- Values are read one after another, each in place of the one held before it, until the text ends or a word is
    rejected. -/
def readFrom (held : α) (text : List Char) : Reading α :=
  match _next : extract text with
  | .ended => ⟨[], none, held⟩
  | .rejected u => ⟨[], some u, held⟩
  | .value a rest =>
    let r := readFrom a rest
    { r with values := a :: r.values }
termination_by text.length
decreasing_by exact length_lt_of_extract _next

/-- What a text gives from the first value on. -/
def read (text : String) : Reading α :=
  readFrom first text.toList

/-- The value named by the first word of a text; a text without words leaves the first value. -/
def parse (text : String) : Except UnknownName α :=
  match extract text.toList with
  | .ended => .ok first
  | .value a _ => .ok a
  | .rejected u => .error u

end Named
end Accessors
