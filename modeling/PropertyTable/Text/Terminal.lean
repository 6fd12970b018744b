/-!
# Text without control sequences

Text that was written for a terminal is shown elsewhere without its escape sequences, control
sequences and control strings, and without other control characters; white space stays.

A sequence may be interrupted by white space.  What follows is shown up to the next control
character, and there the sequence goes on.
-/

namespace PropertyTable.Text.Terminal

/-- What part of a sequence has been read. -/
inductive Sequence where
  /-- The escape character. -/
  | escape
  /-- An escape sequence up to its intermediate characters. -/
  | intermediate
  /-- A control sequence. -/
  | control
  /-- The introducer of a device control string. -/
  | device
  /-- A device control string up to its parameters. -/
  | deviceParameter
  /-- A device control string up to its intermediate characters. -/
  | deviceIntermediate
  /-- The body of a control string. -/
  | string
  /-- An operating system command. -/
  | command
deriving DecidableEq, Repr

/-- Whether a character lies between two others. -/
def within (low high c : Char) : Bool := low ≤ c && c ≤ high

/-- Whether a character is ASCII white space, the vertical tab excepted. -/
def isSpace (c : Char) : Bool := c == '\t' || c == '\n' || c == '\x0c' || c == '\r' || c == ' '

/-- Whether a character is shown outside of sequences. -/
def isShown (c : Char) : Bool := within ' ' '~' c || isSpace c || '\x80' ≤ c

/-- Whether the byte that terminates strings is among the bytes of a character. -/
def hasTerminator (c : Char) : Bool := (String.utf8EncodeChar c).contains 0x9C

namespace Sequence

/-- Whether white space interrupts a sequence; strings take it for their own. -/
def admitsSpace : Sequence → Bool
  | escape | intermediate | control => true
  | device | deviceParameter | deviceIntermediate | string | command => false

/-- The sequence after one more character, or none if that ends it. -/
def next (s : Sequence) (c : Char) : Option Sequence :=
  match s with
  | escape =>
    if within ' ' '/' c then some intermediate
    else if c = '[' then some control
    else if c = ']' then some command
    else if c = 'P' then some device
    else if c = 'X' ∨ c = '^' ∨ c = '_' then some string
    else if within '0' '~' c then none
    else some escape
  | intermediate => if within '0' '~' c then none else some intermediate
  | control => if within '@' '~' c then none else some control
  | device =>
    if within ' ' '/' c then some deviceIntermediate
    else if within '0' '?' c then some deviceParameter
    else if within '@' '~' c then some string
    else some device
  | deviceParameter =>
    if within ' ' '/' c then some deviceIntermediate
    else if within '<' '~' c then some string
    else some deviceParameter
  | deviceIntermediate => if within '0' '~' c then some string else some deviceIntermediate
  | string => if hasTerminator c then none else some string
  | command => if c = '\x07' then none else some command

end Sequence

/-- Whether text is being shown. -/
inductive State where
  /-- Text is shown; the next control character resumes the sequence, if there is one. -/
  | shown (resumed : Option Sequence)
  /-- A sequence is being read. -/
  | hidden (sequence : Sequence)
deriving DecidableEq, Repr

namespace State

/-- Text is shown, and no sequence waits. -/
def ground : State := shown none

/-- Inside a sequence, or outside if there is none. -/
def ofSequence : Option Sequence → State
  | some s => hidden s
  | none => ground

/-- Reads a character, and tells whether it is shown.  The escape character begins a sequence
anywhere, and cancel and substitute end one. -/
def step (state : State) (c : Char) : State × Bool :=
  if c = '\x1b' then (hidden .escape, false)
  else if c = '\x18' ∨ c = '\x1a' then (ground, false)
  else match state with
    | shown resumed =>
      if '\x80' ≤ c then (ground, true)
      else if isShown c then (shown resumed, true)
      else (ofSequence resumed, false)
    | hidden s =>
      if c ≠ ' ' ∧ isSpace c = true ∧ s.admitsSpace = true then (shown (some s), true)
      else (ofSequence (s.next c), false)

end State

/-- What is shown of a text that is read from a given state. -/
def showFrom (state : State) : List Char → List Char
  | [] => []
  | c :: cs =>
    let (after, isKept) := state.step c
    if isKept then c :: showFrom after cs else showFrom after cs

/-- What is shown of a text. -/
def plain (text : String) : List Char := showFrom .ground text.toList

/-- A text between the control sequences that begin and end its emphasis. -/
def emphasised (text : String) : String := "\x1b[1m" ++ text ++ "\x1b[0m"

@[simp] theorem showFrom_nil (state : State) : showFrom state [] = [] := rfl

/-- A text without control characters is shown as it is. -/
theorem showFrom_ground_eq_self {cs : List Char}
    (h : ∀ c ∈ cs, isShown c = true ∧ c ≠ '\x1b' ∧ c ≠ '\x18' ∧ c ≠ '\x1a') :
    showFrom .ground cs = cs := by
  induction cs with
  | nil => rfl
  | cons c cs ih =>
    obtain ⟨hs, he, hx, hy⟩ := h c List.mem_cons_self
    have hc : State.step .ground c = (.ground, true) := by
      by_cases hn : '\x80' ≤ c <;> simp [State.step, State.ground, he, hx, hy, hs, hn]
    rw [showFrom, hc]
    simpa using ih fun d hd ↦ h d (List.mem_cons_of_mem c hd)

end PropertyTable.Text.Terminal
