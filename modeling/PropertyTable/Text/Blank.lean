/-!
# White space

The characters with the Unicode property White_Space.
-/

namespace PropertyTable.Text

/-- The White_Space characters as intervals of code points, ascending. -/
def blanks : List (Nat × Nat) :=
  [(0x0009, 0x000D), (0x0020, 0x0020), (0x0085, 0x0085), (0x00A0, 0x00A0), (0x1680, 0x1680),
    (0x2000, 0x200A), (0x2028, 0x2029), (0x202F, 0x202F), (0x205F, 0x205F), (0x3000, 0x3000)]

/-- Whether a character is white space. -/
def isBlank (c : Char) : Bool := blanks.any fun (low, high) ↦ low ≤ c.toNat && c.toNat ≤ high

/-- The characters that are not white space, in order. -/
def dropBlanks (cs : List Char) : List Char := cs.filter fun c ↦ !isBlank c

@[simp] theorem dropBlanks_nil : dropBlanks [] = [] := rfl

@[simp] theorem dropBlanks_append (as bs : List Char) :
    dropBlanks (as ++ bs) = dropBlanks as ++ dropBlanks bs := List.filter_append ..

/-- What is left has no white space. -/
theorem isBlank_of_mem_dropBlanks {c : Char} {cs : List Char} (h : c ∈ dropBlanks cs) :
    isBlank c = false := by
  simpa using (List.mem_filter.mp h).2

/-- Dropping white space twice is dropping it once. -/
@[simp] theorem dropBlanks_dropBlanks (cs : List Char) :
    dropBlanks (dropBlanks cs) = dropBlanks cs := by
  simp [dropBlanks]

end PropertyTable.Text
