import PropertyTable.CodeSet
import PropertyTable.Logged
import PropertyTable.Lookup

/-!
# Bitmaps

A set of code points is packed into groups of eight bits by one pass over the domain, the least code
point of a group in its least significant bit.  The bits of the last group that lie above the domain
are zero.
-/

namespace PropertyTable

/-- The groups of a packed table over the domain. -/
@[ext]
structure Bitmap where
  /-- The groups, the bit `i` of the group `g` standing for the code point `8 * g + i`. -/
  groups : Array UInt8
deriving DecidableEq

/-- Groups as far as they are packed: the full ones, and the one that is being filled. -/
structure Packing where
  /-- The groups that are full. -/
  done : Array UInt8
  /-- The group that is being filled. -/
  group : UInt8
  /-- The number of bits in it, below eight. -/
  filled : Nat

namespace Packing

/-- Nothing is packed. -/
def start : Packing := ⟨#[], 0, 0⟩

/-- Packs one more bit, above those of the group so far. -/
def push (p : Packing) (bit : Bool) : Packing :=
  let group := if bit then p.group ||| 1 <<< UInt8.ofNat p.filled else p.group
  if p.filled + 1 = groupBits then ⟨p.done.push group, 0, 0⟩ else ⟨p.done, group, p.filled + 1⟩

/-- All groups, the last one cut to the bits that are filled. -/
def finish (p : Packing) : Array UInt8 :=
  if p.filled = 0 then p.done else p.done.push (p.group &&& UInt8.ofNat (1 <<< p.filled - 1))

/-- Packs bits, the first one lowest. -/
def ofBits (bits : List Bool) : Packing := bits.foldl push start

end Packing

namespace Bitmap

/-- The number of groups that cover the domain. -/
def groupCount : Nat := (CodePoint.domainSize + groupBits - 1) / groupBits

/-- The groups of a set, from one pass over the domain. -/
def ofSet (s : CodeSet) : Bitmap := ⟨(Packing.ofBits (CodePoint.domain.map s.contains)).finish⟩

/-- Packs a set; a wrong number of groups is a failure. -/
def pack (s : CodeSet) : Logged Bitmap :=
  let b := ofSet s
  if b.groups.size = groupCount then do
    .note (.packed b.groups.size)
    return b
  else .fail (.groupCount groupCount b.groups.size)

/-- The lookup table over a bitmap. -/
def lookup (b : Bitmap) : Lookup := ⟨CodePoint.last, b.groups⟩

/-- Whether the bit of a code point of the domain is set. -/
def contains (b : Bitmap) (c : CodePoint) : Bool := b.lookup.contains c

/-- The set of the code points of the domain whose bits are set. -/
def decode (b : Bitmap) : CodeSet := .ofList (CodePoint.domain.filter b.lookup.contains)

/-- The number of groups with a bit set. -/
def nonzeroGroups (b : Bitmap) : Nat := b.groups.countP (· ≠ 0)

@[simp] theorem groupCount_eq : groupCount = 25194 := rfl

end Bitmap

end PropertyTable
