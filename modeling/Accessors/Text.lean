/-! # Text

How a text is seen by readers that give some characters a meaning of their own: a console breaks it into
lines, and the reader of an error's message stops at the first null character. -/

namespace Accessors.Text

/-- The lines of a text: each line end begins another line, so there is one line more than line ends. -/
def lines : List Char → List (List Char)
  | [] => [[]]
  | c :: cs =>
    if c = '\n' then [] :: lines cs
    else
      match lines cs with
      | [] => [[c]]
      | l :: ls => (c :: l) :: ls

theorem lines_ne_nil (cs : List Char) : lines cs ≠ [] := by
  cases cs with
  | nil => simp [lines]
  | cons c cs =>
    simp only [lines]
    split
    · simp
    · split <;> simp

/-- The lines, with a line end between each two of them, are the text. -/
theorem intercalate_lines (cs : List Char) : ['\n'].intercalate (lines cs) = cs := by
  induction cs with
  | nil => rfl
  | cons c cs ih =>
    obtain ⟨l, ls, h⟩ := List.exists_cons_of_ne_nil (lines_ne_nil cs)
    rw [h] at ih
    simp only [lines, h]
    split
    · next hc => simp [List.intercalate, hc, ← ih]
    · cases ls <;> simp_all [List.intercalate]

theorem lines_of_not_mem {cs : List Char} (h : '\n' ∉ cs) : lines cs = [cs] := by
  induction cs with
  | nil => rfl
  | cons c cs ih =>
    rw [List.mem_cons, not_or] at h
    simp [lines, ih h.2, Ne.symm h.1]

/-- Some characters up to the first null character. -/
def untilNull (cs : List Char) : List Char := cs.takeWhile (· ≠ '\x00')

theorem untilNull_of_not_mem {cs : List Char} (h : '\x00' ∉ cs) : untilNull cs = cs := by
  induction cs with
  | nil => rfl
  | cons c cs ih =>
    rw [List.mem_cons, not_or] at h
    simpa [untilNull, Ne.symm h.1] using ih h.2

/-- A text up to its first null character. -/
def terminated (s : String) : String := String.ofList (untilNull s.toList)

theorem terminated_of_not_mem {s : String} (h : '\x00' ∉ s.toList) : terminated s = s := by
  rw [terminated, untilNull_of_not_mem h, String.ofList_toList]

end Accessors.Text
