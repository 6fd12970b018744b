/-!
# Hexadecimal numbers

Numbers are read in either case.  Reading has no bound and forgets leading zeros; writing pads with
them.
-/

namespace PropertyTable.Text.Hex

/-- The value of a hexadecimal digit. -/
def digit? (c : Char) : Option Nat :=
  if '0' ≤ c ∧ c ≤ '9' then some (c.toNat - '0'.toNat)
  else if 'a' ≤ c ∧ c ≤ 'f' then some (c.toNat - 'a'.toNat + 10)
  else if 'A' ≤ c ∧ c ≤ 'F' then some (c.toNat - 'A'.toNat + 10)
  else none

/-- The number that digits stand for, the most significant first. -/
def value (digits : List Nat) : Nat := digits.foldl (fun n d ↦ 16 * n + d) 0

/-- Reads a number; a text without digits, or with anything else, is none. -/
def read? (cs : List Char) : Option Nat :=
  if cs = [] then none else (cs.mapM digit?).map value

/-- Digits with zeros in front, at least `width` of them. -/
def pad (width : Nat) (digits : List Char) : List Char :=
  List.replicate (width - digits.length) '0' ++ digits

/-- Writes a number in upper case with at least `width` digits. -/
def write (width n : Nat) : List Char := pad width ((Nat.toDigits 16 n).map Char.toUpper)

/-- Writes a number in lower case with at least `width` digits. -/
def writeLower (width n : Nat) : List Char := pad width (Nat.toDigits 16 n)

@[simp] theorem read?_nil : read? [] = none := rfl

@[simp] theorem value_nil : value [] = 0 := rfl

@[simp] theorem value_append_singleton (digits : List Nat) (d : Nat) :
    value (digits ++ [d]) = 16 * value digits + d := by
  simp [value]

end PropertyTable.Text.Hex
