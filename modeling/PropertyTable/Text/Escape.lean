import PropertyTable.Text.Hex

/-!
# Escaped control characters

In text for a terminal the control characters that begin or end its commands are spelled out.  Other
characters, line ends and tabs among them, stay as they are.
-/

namespace PropertyTable.Text

/-- The ASCII characters that are spelled out: bell, backspace, form feed, escape and delete. -/
def spelled : List Nat := [0x07, 0x08, 0x0C, 0x1B, 0x7F]

/-- A character, spelled out if a terminal would act on it. -/
def escapeChar (c : Char) : List Char :=
  if c.toNat ∈ spelled then ['\\', 'x'] ++ Hex.writeLower 2 c.toNat
  else if 0x80 ≤ c.toNat ∧ c.toNat ≤ 0x9F then
    ['\\', 'u', '\x7b'] ++ Hex.writeLower 1 c.toNat ++ ['\x7d']
  else [c]

/-- A text with the characters spelled out on which a terminal would act. -/
def escape (cs : List Char) : List Char := cs.flatMap escapeChar

@[simp] theorem escape_nil : escape [] = [] := rfl

@[simp] theorem escape_append (as bs : List Char) : escape (as ++ bs) = escape as ++ escape bs :=
  List.flatMap_append

end PropertyTable.Text
