import PropertyTable.Text.Hex

/-!
# Code points

Tables cover the code points up to `CodePoint.last`; any other 32-bit number may be asked for and is
in no table.
-/

namespace PropertyTable

/-- A code point, in or above the domain of the tables. -/
abbrev CodePoint := UInt32

namespace CodePoint

/-- The last code point of the domain. -/
def last : CodePoint := 0x3134A

/-- The number of code points of the domain. -/
def domainSize : Nat := last.toNat + 1

/-- The code points of the domain, ascending. -/
def domain : List CodePoint := (List.range domainSize).map UInt32.ofNat

/-- A code point in upper-case hexadecimal, with at least four digits. -/
def toHex (c : CodePoint) : String := String.ofList (Text.Hex.write 4 c.toNat)

@[simp] theorem toNat_last : last.toNat = 201546 := rfl

@[simp] theorem domainSize_eq : domainSize = 201547 := rfl

theorem lt_domainSize {c : CodePoint} : c.toNat < domainSize ↔ c ≤ last := by
  rw [UInt32.le_iff_toNat_le, domainSize, Nat.lt_succ_iff]

/-- Numbers below the size of the domain are code points. -/
theorem toNat_ofNat {n : Nat} (h : n < domainSize) : (UInt32.ofNat n).toNat = n := by
  rw [domainSize_eq] at h
  exact UInt32.toNat_ofNat_of_lt' (by rw [UInt32.size]; omega)

theorem ofNat_le_last {n : Nat} (h : n < domainSize) : UInt32.ofNat n ≤ last := by
  rwa [← lt_domainSize, toNat_ofNat h]

/-- The domain holds the code points up to the last one and no other. -/
theorem mem_domain {c : CodePoint} : c ∈ domain ↔ c ≤ last := by
  simp only [domain, List.mem_map, List.mem_range]
  constructor
  · rintro ⟨n, hn, rfl⟩
    exact ofNat_le_last hn
  · exact fun h ↦ ⟨c.toNat, lt_domainSize.mpr h, UInt32.ofNat_toNat⟩

end CodePoint

end PropertyTable
