import Mathlib.Data.Set.Card
import PropertyTable.Proofs.Lookup.Enumeration

/-!
# Counting the bits of a bitmap

The set bits of a set's bitmap are at the positions of its members, so that there are as many of
them, and a group has a bit set just if it is the group of a member.
-/

namespace PropertyTable

/-! ## Single groups -/

/-- The number of bits of a group that are set. -/
def ones (group : UInt8) : Nat := (List.range 8).countP group.toNat.testBit

theorem ones_le (group : UInt8) : ones group ≤ 8 := List.countP_le_length

/-- A group that is not zero has a bit set. -/
theorem ne_zero_iff_exists_testBit {group : UInt8} :
    group ≠ 0 ↔ ∃ i < 8, group.toNat.testBit i = true := by
  rw [ne_eq, ← UInt8.toNat_inj, UInt8.toNat_zero]
  constructor
  · intro h
    obtain ⟨i, hi⟩ := Nat.exists_testBit_of_ne_zero h
    refine ⟨i, ?_, hi⟩
    by_contra hle
    rw [testBit_byte_of_le group (Nat.not_lt.mp hle)] at hi
    cases hi
  · rintro ⟨i, -, hi⟩ h
    rw [h, Nat.zero_testBit] at hi
    cases hi

theorem ones_pos_iff (group : UInt8) : 0 < ones group ↔ group ≠ 0 := by
  simp only [ones, List.countP_pos_iff, List.mem_range, ne_zero_iff_exists_testBit]

/-! ## Many groups -/

/-- Each group that is not zero has at least one bit set and at most eight. -/
theorem countP_ne_zero_le_sum_ones (groups : List UInt8) :
    groups.countP (· ≠ 0) ≤ (groups.map ones).sum ∧
    (groups.map ones).sum ≤ 8 * groups.countP (· ≠ 0) := by
  induction groups with
  | nil => exact ⟨Nat.le_refl 0, Nat.le_refl 0⟩
  | cons group groups ih =>
    have hle := ones_le group
    have hpos := ones_pos_iff group
    rw [List.map_cons, List.sum_cons]
    by_cases h : group = 0
    · have hzero : ones group = 0 := Nat.eq_zero_of_not_pos fun hp ↦ hpos.mp hp h
      rw [List.countP_cons_of_neg (by simpa using h)]
      omega
    · have hone := hpos.mpr h
      rw [List.countP_cons_of_pos (by simpa using h)]
      omega

/-- There are as many positions as bits that are set. -/
theorem length_bitPositions (groups : Array UInt8) :
    (bitPositions groups).length = (groups.toList.map ones).sum := by
  have hones : groups.toList.map ones = groups.toList.zipIdx.map (ones ∘ Prod.fst) := by
    rw [← List.map_map, List.zipIdx_map_fst]
  rw [bitPositions, List.length_flatMap, hones]
  simp only [List.length_map, ← List.countP_eq_length_filter]
  rfl

/-- The indices of the groups that are not zero. -/
def nonzeroIndices (groups : Array UInt8) : List Nat :=
  (groups.toList.zipIdx.filter (·.1 ≠ 0)).map Prod.snd

theorem nodup_nonzeroIndices (groups : Array UInt8) : (nonzeroIndices groups).Nodup := by
  refine (List.filter_sublist.map Prod.snd).nodup ?_
  rw [List.zipIdx_map_snd]
  exact List.nodup_range'

theorem length_nonzeroIndices (groups : Array UInt8) :
    (nonzeroIndices groups).length = groups.toList.countP (· ≠ 0) := by
  rw [nonzeroIndices, List.length_map, ← List.countP_eq_length_filter]
  conv_rhs => rw [← List.zipIdx_map_fst 0 groups.toList, List.countP_map]
  rfl

/-- They are the eighths of the positions of set bits. -/
theorem mem_nonzeroIndices {groups : Array UInt8} {g : Nat} :
    g ∈ nonzeroIndices groups ↔ ∃ n ∈ bitPositions groups, n / 8 = g := by
  simp only [nonzeroIndices, mem_bitPositions, List.mem_map, List.mem_filter, Prod.exists,
    List.mk_mem_zipIdx_iff_getElem?, Array.getElem?_toList, decide_eq_true_iff,
    ne_zero_iff_exists_testBit]
  constructor
  · rintro ⟨group, g, ⟨hg, i, hi, hb⟩, rfl⟩
    exact ⟨8 * g + i, (groupBit_of_getElem? hg hi).trans hb, by omega⟩
  · rintro ⟨n, hn, rfl⟩
    obtain ⟨group, hg, hb⟩ := groupBit_eq_true_iff.mp hn
    exact ⟨group, _, ⟨hg, n % 8, Nat.mod_lt n (by decide), hb⟩, rfl⟩

theorem countP_ne_zero_eq_ncard (groups : Array UInt8) :
    groups.toList.countP (· ≠ 0) = ((· / 8) '' {n | n ∈ bitPositions groups}).ncard := by
  have hset : (· / 8) '' {n | n ∈ bitPositions groups} = (nonzeroIndices groups).toFinset := by
    ext g
    rw [List.coe_toFinset, Set.mem_ofPred_eq, mem_nonzeroIndices]
    rfl
  rw [hset, Set.ncard_coe_finset, List.toFinset_card_of_nodup (nodup_nonzeroIndices groups),
    length_nonzeroIndices]

namespace Bitmap

/-- The positions of the bits of a set's bitmap are its members, in the same order. -/
theorem map_toNat_toList (s : CodeSet) :
    s.toList.map UInt32.toNat = bitPositions (ofSet s).groups := by
  have htoList := pairwise_map_toNat (CodeSet.pairwise_toList s)
  refine htoList.eq_of_mem_iff (pairwise_bitPositions _) fun n ↦ ?_
  rw [List.mem_map, mem_bitPositions, groupBit_ofSet]
  constructor
  · rintro ⟨c, hc, rfl⟩
    rw [CodeSet.mem_toList] at hc
    rw [UInt32.ofNat_toNat]
    exact ⟨CodePoint.lt_domainSize.mpr (CodeSet.le_last_of_mem hc), hc⟩
  · rintro ⟨hn, hm⟩
    exact ⟨_, CodeSet.mem_toList.mpr hm, CodePoint.toNat_ofNat hn⟩

/-- A set has as many members as its bitmap has bits set. -/
theorem size_eq_sum_ones {s : CodeSet} (hs : s.WellFormed) :
    s.size = ((ofSet s).groups.toList.map ones).sum := by
  rw [← length_bitPositions, ← map_toNat_toList, List.length_map, hs.length_toList]

/-- A set has at least one member for each group that is not zero, and at most eight. -/
theorem nonzeroGroups_ofSet_bounds {s : CodeSet} (hs : s.WellFormed) :
    (ofSet s).nonzeroGroups ≤ s.size ∧ s.size ≤ 8 * (ofSet s).nonzeroGroups := by
  rw [size_eq_sum_ones hs, nonzeroGroups, ← Array.countP_toList]
  exact countP_ne_zero_le_sum_ones _

theorem nonzeroGroups_ofSet_eq_zero_iff {s : CodeSet} (hs : s.WellFormed) :
    (ofSet s).nonzeroGroups = 0 ↔ {c | c ∈ s} = ∅ := by
  obtain ⟨hle, hle'⟩ := nonzeroGroups_ofSet_bounds hs
  have hsize : s.size = 0 ↔ {c | c ∈ s} = ∅ := by
    rw [← beq_iff_eq, ← CodeSet.isEmpty, hs.isEmpty_iff, Set.eq_empty_iff_forall_notMem]
    rfl
  rw [← hsize]
  omega

/-- The groups of a set's bitmap that are not zero are those of its members. -/
theorem nonzeroGroups_ofSet (s : CodeSet) :
    (ofSet s).nonzeroGroups = ((fun c : CodePoint ↦ c.toNat / 8) '' {c | c ∈ s}).ncard := by
  have hpositions : {n | n ∈ bitPositions (ofSet s).groups} = UInt32.toNat '' {c | c ∈ s} := by
    ext n
    rw [← map_toNat_toList]
    simp
  rw [nonzeroGroups, ← Array.countP_toList, countP_ne_zero_eq_ncard, hpositions, Set.image_image]

end Bitmap

end PropertyTable
