import Mathlib.Algebra.GroupWithZero.Nat
import Mathlib.Data.List.Sort
import PropertyTable.CodeRange

/-!
# The code points of a range

The list of a range ascends, so that it is known by its members.  It can be taken apart at either
end, where the neighbour of a bound is a code point again because the other bound lies beyond it.
-/

namespace PropertyTable

namespace CodePoint

variable {c d : CodePoint}

/-- Below another code point there is a next one, ... -/
theorem toNat_add_one (h : c < d) : (c + 1).toNat = c.toNat + 1 := by
  have hc := UInt32.lt_iff_toNat_lt.mp h
  have hd := d.toNat_lt
  rw [UInt32.toNat_add, UInt32.toNat_one]
  omega

/-- ... and above another one there is one before. -/
theorem toNat_sub_one_add_one (h : c < d) : (d - 1).toNat + 1 = d.toNat := by
  have hc := UInt32.lt_iff_toNat_lt.mp h
  have hle : 1 ≤ d := by
    rw [UInt32.le_iff_toNat_le, UInt32.toNat_one]
    omega
  rw [UInt32.toNat_sub_of_le _ _ hle, UInt32.toNat_one]
  omega

end CodePoint

namespace CodeRange

variable {r : CodeRange} {l h : CodePoint}

theorem mem_iff_toNat {c : CodePoint} : c ∈ r ↔ r.low.toNat ≤ c.toNat ∧ c.toNat ≤ r.high.toNat := by
  rw [mem_def, UInt32.le_iff_toNat_le, UInt32.le_iff_toNat_le]

/-- The code points of a range are listed in ascending order. -/
theorem pairwise_codes (r : CodeRange) : r.codes.Pairwise (· < ·) := by
  have hh := r.high.toNat_lt
  have hp : (List.range' r.low.toNat r.size).Pairwise (· < ·) := List.pairwise_lt_range'
  rw [codes, List.pairwise_map]
  refine hp.imp_of_mem fun {m n} hm hn h ↦ ?_
  rw [List.mem_range'_1, size] at hm hn
  rwa [UInt32.lt_iff_toNat_lt, UInt32.toNat_ofNat_of_lt' (by rw [UInt32.size]; omega),
    UInt32.toNat_ofNat_of_lt' (by rw [UInt32.size]; omega)]

/-- Cutting a range off at a bound keeps its code points up to the bound. -/
theorem codes_upTo (r : CodeRange) (b : CodePoint) : (r.upTo b).codes = r.codes.filter (· ≤ b) := by
  refine (pairwise_codes _).eq_of_mem_iff ((pairwise_codes r).filter _) fun c ↦ ?_
  simp only [mem_codes, mem_def, low_upTo, high_upTo, List.mem_filter, decide_eq_true_iff,
    Std.le_min_iff, and_assoc]

/-! ## How many there are -/

/-- A range holds nothing just if its bounds are inverted. -/
theorem size_eq_zero_iff : r.size = 0 ↔ r.high < r.low := by
  rw [size, UInt32.lt_iff_toNat_lt]
  omega

theorem codes_eq_nil_iff : r.codes = [] ↔ r.high < r.low := by
  rw [← List.length_eq_zero_iff, length_codes, size_eq_zero_iff]

/-- There are no more code points than 32-bit numbers. -/
theorem size_le (r : CodeRange) : r.size ≤ 2 ^ 32 := by
  have hh := r.high.toNat_lt
  rw [size]
  omega

/-! ## One end and the others -/

theorem codes_range_self (c : CodePoint) : (range c c).codes = [c] := by
  simp [codes, size]

/-- The code points of a range are its lower bound and those from the next one on, ... -/
theorem codes_range_of_lt (hlh : l < h) : (range l h).codes = l :: (range (l + 1) h).codes := by
  have hl := UInt32.lt_iff_toNat_lt.mp hlh
  have hs : h.toNat + 1 - l.toNat = h.toNat + 1 - (l.toNat + 1) + 1 := by omega
  simp only [codes, size, low_range, high_range, CodePoint.toNat_add_one hlh]
  rw [hs, List.range'_succ, List.map_cons, UInt32.ofNat_toNat]

/-- ... or those up to the one before its upper bound, and that bound. -/
theorem codes_range_of_lt_append (hlh : l < h) :
    (range l h).codes = (range l (h - 1)).codes ++ [h] := by
  have hl := UInt32.lt_iff_toNat_lt.mp hlh
  have hh := CodePoint.toNat_sub_one_add_one hlh
  have hs : h.toNat + 1 - l.toNat = h.toNat - l.toNat + 1 := by omega
  have hlast : l.toNat + (h.toNat - l.toNat) = h.toNat := by omega
  simp only [codes, size, low_range, high_range, hh]
  rw [hs, List.range'_concat, Nat.one_mul, hlast, List.map_append, List.map_singleton,
    UInt32.ofNat_toNat]

end CodeRange

end PropertyTable
