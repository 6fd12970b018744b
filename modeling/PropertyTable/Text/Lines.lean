/-!
# Lines

A line ends at a newline, or at the end of the text if anything stands there.  A carriage return
right before a newline belongs to the line's end.
-/

namespace PropertyTable.Text

/-- Puts a character in front of the first line. -/
def joinFirst (c : Char) : List (List Char) → List (List Char)
  | [] => [[c]]
  | line :: rest => (c :: line) :: rest

/-- Reads one character from the right: whether a newline follows it, and the lines that follow
it. -/
def lineStep (c : Char) (after : Bool × List (List Char)) : Bool × List (List Char) :=
  if c = '\n' then (true, [] :: after.2)
  else if c = '\r' ∧ after.1 = true then (false, after.2)
  else (false, joinFirst c after.2)

/-- The lines of a text, without their ends. -/
def lines (cs : List Char) : List (List Char) := (cs.foldr lineStep (false, [])).2

/-- The text without the byte order mark that may begin it. -/
def dropMark : List Char → List Char
  | '\uFEFF' :: cs => cs
  | cs => cs

private theorem lineStep_newline_fst (cs : List Char) :
    (cs.foldr lineStep (false, [])).1 = true ↔ ∃ rest, cs = '\n' :: rest := by
  cases cs with
  | nil => simp
  | cons c rest =>
    by_cases hc : c = '\n'
    · simp [lineStep, hc]
    · by_cases hr : c = '\r' ∧ (rest.foldr lineStep (false, [])).1 = true <;>
        simp [lineStep, hc, hr]

@[simp] theorem lines_nil : lines [] = [] := rfl

@[simp] theorem lines_newline (cs : List Char) : lines ('\n' :: cs) = [] :: lines cs := rfl

/-- A carriage return before a newline is part of the line's end. -/
@[simp] theorem lines_return_newline (cs : List Char) :
    lines ('\r' :: '\n' :: cs) = [] :: lines cs := rfl

/-- Any other character belongs to the line that it begins or continues. -/
theorem lines_cons {c : Char} {cs : List Char} (hn : c ≠ '\n')
    (hr : c = '\r' → ∀ rest, cs ≠ '\n' :: rest) : lines (c :: cs) = joinFirst c (lines cs) := by
  have hf : ¬(c = '\r' ∧ (cs.foldr lineStep (false, [])).1 = true) := fun ⟨hc, ht⟩ ↦
    (lineStep_newline_fst cs).mp ht |>.elim (hr hc)
  simp [lines, lineStep, hn, hf]

end PropertyTable.Text
