import PropertyTable.Proofs.Bitmap.Packing

/-!
# Enumerating a lookup table

A lookup table answers for one code point at a time, by its group and its bit.  Going through the
groups, and through the bits of each, gives the positions of all set bits in ascending order; those
up to the bound of the table are the code points that it contains.  So nothing else in the groups
has any influence on an answer.
-/

namespace PropertyTable

variable {groups : Array UInt8}

/-! ## Set bits -/

/-- The positions of the set bits: one group after another, and in each group from the lowest
bit. -/
def bitPositions (groups : Array UInt8) : List Nat :=
  groups.toList.zipIdx.flatMap fun (group, g) ↦
    ((List.range 8).filter group.toNat.testBit).map (8 * g + ·)

/-- A bit that is set lies in some group. -/
theorem groupBit_eq_true_iff {n : Nat} :
    groupBit groups n = true ↔
      ∃ group, groups[n / 8]? = some group ∧ group.toNat.testBit (n % 8) = true := by
  unfold groupBit
  cases groups[n / 8]? with
  | none => simp
  | some group => simp

theorem mem_bitPositions {n : Nat} : n ∈ bitPositions groups ↔ groupBit groups n = true := by
  simp only [bitPositions, List.mem_flatMap, Prod.exists, List.mk_mem_zipIdx_iff_getElem?,
    List.mem_map, List.mem_filter, List.mem_range, Array.getElem?_toList]
  constructor
  · rintro ⟨group, g, hg, i, ⟨hi, hb⟩, rfl⟩
    rwa [groupBit_of_getElem? hg hi]
  · intro h
    obtain ⟨group, hg, hb⟩ := groupBit_eq_true_iff.mp h
    exact ⟨group, n / 8, hg, n % 8, ⟨Nat.mod_lt n (by decide), hb⟩, Nat.div_add_mod n 8⟩

/-- Going through groups and bits in order is going through positions in order. -/
theorem pairwise_bitPositions (groups : Array UInt8) : (bitPositions groups).Pairwise (· < ·) := by
  have hindex : (groups.toList.zipIdx.map Prod.snd).Pairwise (· < ·) := by
    rw [List.zipIdx_map_snd]
    exact List.pairwise_lt_range'
  refine List.pairwise_flatMap.mpr ⟨?_, (List.pairwise_map.mp hindex).imp ?_⟩
  · rintro ⟨group, g⟩ -
    refine List.pairwise_map.mpr ((List.pairwise_lt_range.filter _).imp ?_)
    exact fun h ↦ Nat.add_lt_add_left h _
  · -- All positions of a group lie below those of a later one.
    rintro ⟨group, g⟩ ⟨group', g'⟩ hlt m hm n hn
    simp only [List.mem_map, List.mem_filter, List.mem_range] at hm hn
    obtain ⟨i, ⟨hi, -⟩, rfl⟩ := hm
    obtain ⟨j, -, rfl⟩ := hn
    change g < g' at hlt
    omega

/-- Code points in ascending order have their numbers in that order. -/
theorem pairwise_map_toNat {cs : List CodePoint} (h : cs.Pairwise (· < ·)) :
    (cs.map UInt32.toNat).Pairwise (· < ·) :=
  List.pairwise_map.mpr (h.imp UInt32.lt_iff_toNat_lt.mp)

namespace Lookup

/-! ## Answers -/

/-- A table contains the code points up to its bound whose bits are set. -/
theorem contains_iff {t : Lookup} {c : CodePoint} :
    t.contains c = true ↔ c.toNat ≤ t.max.toNat ∧ groupBit t.groups c.toNat = true := by
  rw [contains_eq, Bool.and_eq_true, decide_eq_true_iff, UInt32.le_iff_toNat_le]

/-- The code points that a table contains, among all of them, are the positions of its set bits up
to the bound, in the same order. -/
theorem map_toNat_filter_contains (t : Lookup) :
    ((CodeRange.range 0 0xFFFFFFFF).codes.filter t.contains).map UInt32.toNat
      = (bitPositions t.groups).filter (· ≤ t.max.toNat) := by
  have hcodes : (((CodeRange.range 0 0xFFFFFFFF).codes.filter t.contains).map UInt32.toNat).Pairwise
      (· < ·) :=
    pairwise_map_toNat ((CodeRange.pairwise_codes _).filter _)
  have hall (c : CodePoint) : c ∈ CodeRange.range 0 0xFFFFFFFF := by
    have := c.toNat_lt
    simp only [CodeRange.mem_def, CodeRange.low_range, CodeRange.high_range, UInt32.le_iff_toNat_le,
      UInt32.reduceToNat]
    omega
  refine hcodes.eq_of_mem_iff ((pairwise_bitPositions _).filter _) fun n ↦ ?_
  simp only [List.mem_map, List.mem_filter, CodeRange.mem_codes, hall, true_and, contains_iff,
    mem_bitPositions, decide_eq_true_iff]
  constructor
  · rintro ⟨c, ⟨hc, hb⟩, rfl⟩
    exact ⟨hb, hc⟩
  · rintro ⟨hb, hn⟩
    have hlt : n < UInt32.size := Nat.lt_of_le_of_lt hn t.max.toNat_lt
    refine ⟨UInt32.ofNat n, ?_⟩
    rw [UInt32.toNat_ofNat_of_lt' hlt]
    exact ⟨⟨hn, hb⟩, rfl⟩

/-- Tables with one bound are alike if their bits up to it are. -/
theorem contains_congr {max : CodePoint} {as bs : Array UInt8}
    (h : ∀ n ≤ max.toNat, groupBit as n = groupBit bs n) :
    (Lookup.mk max as).contains = (Lookup.mk max bs).contains := by
  funext c
  rw [Bool.eq_iff_iff, contains_iff, contains_iff]
  exact and_congr_right fun hc ↦ by rw [h _ hc]

end Lookup

/-- The groups up to a bound have all the bits up to it. -/
theorem groupBit_take {bound n : Nat} (h : n ≤ bound) (groups : Array UInt8) :
    groupBit (groups.take (bound / 8 + 1)) n = groupBit groups n := by
  have hn : n / 8 < bound / 8 + 1 := by omega
  have hg : (groups.take (bound / 8 + 1))[n / 8]? = groups[n / 8]? := by
    rw [Array.take_eq_extract, Array.getElem?_extract, Nat.zero_add]
    split
    · rfl
    · next hsize => rw [Array.getElem?_eq_none (by omega)]
  rw [groupBit, groupBit, hg]

/-- Groups of zeros add no bits. -/
theorem groupBit_append_replicate_zero (groups : Array UInt8) (count n : Nat) :
    groupBit (groups ++ Array.replicate count 0) n = groupBit groups n := by
  unfold groupBit
  rcases Nat.lt_or_ge (n / 8) groups.size with h | h
  · rw [Array.getElem?_append_left h]
  · rw [Array.getElem?_append_right h, Array.getElem?_eq_none h, Array.getElem?_replicate]
    split <;> rfl

namespace Lookup

/-- Asking a table about every code point is going through its groups.  For any bound and any
groups, few or many, the code points that the table contains, in ascending order, are the positions
of the set bits as they are met group by group and bit by bit, those above the bound left out.  So
groups with the same bits up to the bound give the same answers, the groups beyond that of the bound
are of no importance, and zeros at the end change nothing. -/
theorem contains_enumerated (max : CodePoint) (groups : Array UInt8) :
    ((CodeRange.range 0 0xFFFFFFFF).codes.filter (Lookup.mk max groups).contains).map UInt32.toNat
      = (bitPositions groups).filter (· ≤ max.toNat) ∧
    (∀ others : Array UInt8, (∀ n ≤ max.toNat, groupBit others n = groupBit groups n) →
      (Lookup.mk max others).contains = (Lookup.mk max groups).contains) ∧
    (Lookup.mk max (groups.take (max.toNat / 8 + 1))).contains = (Lookup.mk max groups).contains ∧
    ∀ count, (Lookup.mk max (groups ++ Array.replicate count 0)).contains
      = (Lookup.mk max groups).contains := by
  refine ⟨map_toNat_filter_contains _, fun others h ↦ contains_congr h, ?_, fun count ↦ ?_⟩
  · exact contains_congr fun n hn ↦ groupBit_take hn groups
  · exact contains_congr fun n _ ↦ groupBit_append_replicate_zero groups count n

/-- Three groups with a bound in the last one, and groups with other bits above the bound. -/
theorem contains_enumerated_samples :
    ((CodeRange.range 0 0xFFFFFFFF).codes.filter (Lookup.mk 0x11 #[0x81, 0, 0x06]).contains).map
      UInt32.toNat
      = [0, 7, 17] ∧
    (∀ n ≤ (0x11 : CodePoint).toNat,
      groupBit #[0x81, 0, 0xFE, 0xFF] n = groupBit #[0x81, 0, 0x06] n) ∧
    (Lookup.mk 0x11 #[0x81, 0, 0xFE, 0xFF]).contains
      = (Lookup.mk 0x11 #[0x81, 0, 0x06]).contains := by
  obtain ⟨hcodes, hothers, -⟩ := contains_enumerated 0x11 #[0x81, 0, 0x06]
  have hbits : ∀ n ≤ (0x11 : CodePoint).toNat,
      groupBit #[0x81, 0, 0xFE, 0xFF] n = groupBit #[0x81, 0, 0x06] n := by decide
  exact ⟨hcodes.trans (by decide), hbits, hothers _ hbits⟩

end Lookup

end PropertyTable
