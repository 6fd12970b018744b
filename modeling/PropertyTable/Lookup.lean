import PropertyTable.CodePoint

/-!
# Lookup tables

A lookup table answers membership from groups of eight bits.  The bit `i` of the group `g` stands
for the code point `8 * g + i`; bits above the table's bound count for nothing.
-/

namespace PropertyTable

/-- The number of code points in a group. -/
def groupBits : Nat := 8

/-- Groups of bits with the last code point that they cover. -/
structure Lookup where
  /-- The last code point covered. -/
  max : CodePoint
  /-- The groups. -/
  groups : Array UInt8
deriving DecidableEq

namespace Lookup

/-- Whether the bit of a code point is set and covered. -/
def contains (t : Lookup) (c : CodePoint) : Bool :=
  c ≤ t.max && match t.groups[c.toNat / groupBits]? with
    | some group => group.toNat.testBit (c.toNat % groupBits)
    | none => false

/-- Whether the bit of a character's code point is set and covered. -/
def containsChar (t : Lookup) (ch : Char) : Bool := t.contains ch.val

end Lookup

end PropertyTable
