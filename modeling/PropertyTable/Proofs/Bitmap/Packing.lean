import Mathlib.Algebra.Order.Floor.Div
import PropertyTable.Bitmap
import PropertyTable.Proofs.CodeSet.Insertion

/-!
# Packing

One pass packs any list of bits, eight to a group and the first one lowest; the bits of a last group
that is not full are zero.  Packing the bits of a set gives a bitmap whose lookup has the set's
members.
-/

namespace PropertyTable

/-- The bit at a position of groups of eight; there are none beyond the last group. -/
def groupBit (groups : Array UInt8) (n : Nat) : Bool :=
  (groups[n / 8]?.getD 0).toNat.testBit (n % 8)

/-- The bits of a group are at its eight positions. -/
theorem groupBit_of_getElem? {groups : Array UInt8} {n : Nat} {g : UInt8} (h : groups[n]? = some g)
    {i : Nat} (hi : i < 8) : groupBit groups (8 * n + i) = g.toNat.testBit i := by
  have hd : (8 * n + i) / 8 = n := by omega
  have hm : (8 * n + i) % 8 = i := by omega
  rw [groupBit, hd, hm, h, Option.getD_some]

theorem groupBit_of_le {groups : Array UInt8} {n : Nat} (h : 8 * groups.size ≤ n) :
    groupBit groups n = false := by
  have hn : groups.size ≤ n / 8 := by omega
  simp [groupBit, hn]

theorem groupBit_push_of_lt {groups : Array UInt8} {n : Nat} (h : n < 8 * groups.size) (g : UInt8) :
    groupBit (groups.push g) n = groupBit groups n := by
  have hn : n / 8 < groups.size := by omega
  simp [groupBit, Array.getElem?_push_lt hn, hn]

theorem groupBit_push_last (groups : Array UInt8) (g : UInt8) {i : Nat} (h : i < 8) :
    groupBit (groups.push g) (8 * groups.size + i) = g.toNat.testBit i :=
  groupBit_of_getElem? Array.getElem?_push_size h

/-- A byte has eight bits. -/
theorem testBit_byte_of_le (g : UInt8) {i : Nat} (h : 8 ≤ i) : g.toNat.testBit i = false :=
  Nat.testBit_lt_two_pow (g.toNat_lt.trans_le (Nat.pow_le_pow_right (by decide) h))

/-- As many groups with the same bits are the same groups. -/
theorem eq_of_groupBit_eq {as bs : Array UInt8} (hs : as.size = bs.size)
    (h : ∀ n, groupBit as n = groupBit bs n) : as = bs := by
  refine Array.ext hs fun g ha hb ↦ ?_
  rw [← UInt8.toNat_inj]
  refine Nat.eq_of_testBit_eq fun i ↦ ?_
  rcases Nat.lt_or_ge i 8 with hi | hi
  · rw [← groupBit_of_getElem? (Array.getElem?_eq_getElem ha) hi,
      ← groupBit_of_getElem? (Array.getElem?_eq_getElem hb) hi, h]
  · rw [testBit_byte_of_le _ hi, testBit_byte_of_le _ hi]

/-- The bits of groups that are joined one by one are the bits of either. -/
theorem groupBit_zipWith_or {as bs : Array UInt8} (hs : as.size = bs.size) (n : Nat) :
    groupBit (Array.zipWith (· ||| ·) as bs) n = (groupBit as n || groupBit bs n) := by
  unfold groupBit
  rw [Array.getElem?_zipWith]
  rcases Nat.lt_or_ge (n / 8) as.size with h | h
  · have h' : n / 8 < bs.size := hs ▸ h
    simp [h, h']
  · have h' : bs.size ≤ n / 8 := hs ▸ h
    simp [h, h']

/-! ## One pass -/

namespace Packing

/-- What is packed are the given bits: those of the full groups, and those of the group that is
being filled, which has no others. -/
structure Holds (p : Packing) (bits : List Bool) : Prop where
  filled_lt : p.filled < 8
  length_eq : bits.length = 8 * p.done.size + p.filled
  done_bit : ∀ n < 8 * p.done.size, groupBit p.done n = bits[n]?.getD false
  group_bit : ∀ i, p.group.toNat.testBit i = bits[8 * p.done.size + i]?.getD false

theorem start_holds : start.Holds [] where
  filled_lt := by decide
  length_eq := rfl
  done_bit n hn := absurd hn (Nat.not_lt_zero n)
  group_bit i := Nat.zero_testBit i

private theorem getD_append_singleton (bits : List Bool) (bit : Bool) (n : Nat) :
    (bits ++ [bit])[n]?.getD false
      = (bits[n]?.getD false || (bit && decide (n = bits.length))) := by
  rcases Nat.lt_trichotomy n bits.length with h | rfl | h
  · simp [List.getElem?_append_left h, h.ne]
  · simp
  · have hn : (bits ++ [bit])[n]? = none := by
      rw [List.getElem?_eq_none_iff, List.length_append, List.length_singleton]
      exact h
    rw [hn, List.getElem?_eq_none h.le, decide_eq_false h.ne', Bool.and_false]
    rfl

private theorem testBit_or_bit (g : UInt8) (bit : Bool) {k : Nat} (hk : k < 8) (i : Nat) :
    (if bit then g ||| 1 <<< UInt8.ofNat k else g).toNat.testBit i
      = (g.toNat.testBit i || (bit && decide (i = k))) := by
  have hp : 2 ^ k < 2 ^ 8 := Nat.pow_lt_pow_right (by decide) hk
  have hm : (1 <<< UInt8.ofNat k : UInt8).toNat = 2 ^ k := by
    have hk' : k < 2 ^ 8 := hk.trans (by decide)
    rw [UInt8.toNat_shiftLeft, UInt8.toNat_ofNat', Nat.mod_eq_of_lt hk', Nat.mod_eq_of_lt hk,
      UInt8.toNat_one, Nat.one_shiftLeft, Nat.mod_eq_of_lt hp]
  cases bit with
  | false => simp
  | true => simp [hm, Nat.testBit_two_pow, eq_comm]

/-- One more bit is packed after the others. -/
theorem Holds.push {p : Packing} {bits : List Bool} (h : p.Holds bits) (bit : Bool) :
    (p.push bit).Holds (bits ++ [bit]) := by
  have hf := h.filled_lt
  have hl := h.length_eq
  have hg : ∀ i, (if bit then p.group ||| 1 <<< UInt8.ofNat p.filled else p.group).toNat.testBit i
      = (bits ++ [bit])[8 * p.done.size + i]?.getD false := by
    intro i
    rw [testBit_or_bit _ _ hf, h.group_bit, getD_append_singleton, hl]
    simp
  have hd : ∀ n < 8 * p.done.size, groupBit p.done n = (bits ++ [bit])[n]?.getD false := by
    intro n hn
    have hne : n ≠ bits.length := by omega
    simp [h.done_bit n hn, getD_append_singleton, hne]
  by_cases hfull : p.filled + 1 = groupBits
  · rw [Packing.push, if_pos hfull]
    rw [groupBits] at hfull
    refine ⟨Nat.zero_lt_succ 7, ?_, ?_, ?_⟩
    · simp only [List.length_append, List.length_singleton, Array.size_push]
      omega
    · intro n hn
      rw [Array.size_push] at hn
      rcases Nat.lt_or_ge n (8 * p.done.size) with hn' | hn'
      · rw [groupBit_push_of_lt hn', hd n hn']
      · obtain ⟨i, rfl⟩ := Nat.exists_eq_add_of_le hn'
        rw [groupBit_push_last _ _ (by omega), hg]
    · intro i
      rw [List.getElem?_eq_none (by simp; omega)]
      exact Nat.zero_testBit i
  · rw [Packing.push, if_neg hfull]
    rw [groupBits] at hfull
    refine ⟨?_, ?_, hd, hg⟩
    · show p.filled + 1 < 8
      omega
    · simp only [List.length_append, List.length_singleton]
      omega

/-- A pass packs all bits, after those that were packed before it. -/
theorem Holds.foldl_push {p : Packing} {as : List Bool} (h : p.Holds as) (bs : List Bool) :
    (bs.foldl Packing.push p).Holds (as ++ bs) := by
  induction bs generalizing p as with
  | nil => simpa using h
  | cons b bs ih => simpa using ih (h.push b)

theorem ofBits_holds (bits : List Bool) : (ofBits bits).Holds bits := start_holds.foldl_push bits

private theorem testBit_and_low (g : UInt8) {k : Nat} (hk : k < 8) (i : Nat) :
    (g &&& UInt8.ofNat (1 <<< k - 1)).toNat.testBit i = (g.toNat.testBit i && decide (i < k)) := by
  have hp : 2 ^ k < 2 ^ 8 := Nat.pow_lt_pow_right (by decide) hk
  have hm : (UInt8.ofNat (1 <<< k - 1)).toNat = 2 ^ k - 1 := by
    rw [Nat.one_shiftLeft, UInt8.toNat_ofNat']
    exact Nat.mod_eq_of_lt (by omega)
  rw [UInt8.toNat_and, hm, Nat.testBit_and, Nat.testBit_two_pow_sub_one]

/-- There are as many groups as the bits need. -/
theorem Holds.size_finish {p : Packing} {bits : List Bool} (h : p.Holds bits) :
    p.finish.size = (bits.length + 7) / 8 := by
  have hf := h.filled_lt
  rw [h.length_eq, finish]
  split
  · omega
  · rw [Array.size_push]
    omega

/-- The groups hold the bits, and zeros after them. -/
theorem Holds.groupBit_finish {p : Packing} {bits : List Bool} (h : p.Holds bits) (n : Nat) :
    groupBit p.finish n = bits[n]?.getD false := by
  have hf := h.filled_lt
  have hl := h.length_eq
  unfold finish
  rcases Nat.lt_or_ge n (8 * p.done.size) with hn | hn
  · split
    · exact h.done_bit n hn
    · rw [groupBit_push_of_lt hn, h.done_bit n hn]
  obtain ⟨i, rfl⟩ := Nat.exists_eq_add_of_le hn
  split
  · rw [groupBit_of_le hn, List.getElem?_eq_none (by omega)]
    rfl
  rcases Nat.lt_or_ge i 8 with hi | hi
  · -- The mask does nothing: a group that is being filled has no bits above those filled.
    rw [groupBit_push_last _ _ hi, testBit_and_low _ hf, h.group_bit]
    rcases Nat.lt_or_ge i p.filled with hi' | hi'
    · simp [hi']
    · rw [List.getElem?_eq_none (by omega)]
      rfl
  · rw [groupBit_of_le (by rw [Array.size_push]; omega), List.getElem?_eq_none (by omega)]
    rfl

end Packing

/-! ## Bitmaps of sets -/

theorem Lookup.contains_eq (t : Lookup) (c : CodePoint) :
    t.contains c = (decide (c ≤ t.max) && groupBit t.groups c.toNat) := by
  unfold Lookup.contains groupBit groupBits
  cases t.groups[c.toNat / 8]? with
  | none => simp
  | some g => simp

namespace Bitmap

theorem size_ofSet (s : CodeSet) : (ofSet s).groups.size = groupCount := by
  rw [ofSet, (Packing.ofBits_holds _).size_finish, List.length_map, CodePoint.domain,
    List.length_map, List.length_range]
  rfl

/-- Packing never fails. -/
theorem pack_outcome (s : CodeSet) : (pack s).outcome = .ok (ofSet s) := by
  rw [pack, if_pos (size_ofSet s)]
  rfl

/-- The bits of a set's bitmap are those of its members. -/
theorem groupBit_ofSet (s : CodeSet) (n : Nat) :
    groupBit (ofSet s).groups n = true ↔ n < CodePoint.domainSize ∧ UInt32.ofNat n ∈ s := by
  rw [ofSet, (Packing.ofBits_holds _).groupBit_finish, CodePoint.domain, List.map_map]
  rcases Nat.lt_or_ge n CodePoint.domainSize with hn | hn
  · rw [List.getElem?_map, List.getElem?_range hn]
    simp only [Option.map_some, Option.getD_some, Function.comp_apply, hn, true_and]
    rfl
  · rw [List.getElem?_eq_none (by rwa [List.length_map, List.length_range])]
    exact iff_of_false Bool.false_ne_true fun h ↦ Nat.not_lt.mpr hn h.1

/-- The groups of a union are those of its parts, joined one by one. -/
theorem groups_ofSet_of_union {s t u : CodeSet} (h : ∀ c, c ∈ u ↔ c ∈ s ∨ c ∈ t) :
    (ofSet u).groups = Array.zipWith (· ||| ·) (ofSet s).groups (ofSet t).groups := by
  have hst : (ofSet s).groups.size = (ofSet t).groups.size := by rw [size_ofSet, size_ofSet]
  apply eq_of_groupBit_eq
  · rw [Array.size_zipWith, ← hst, Nat.min_self, size_ofSet, size_ofSet]
  · intro n
    rw [groupBit_zipWith_or hst, Bool.eq_iff_iff, Bool.or_eq_true, groupBit_ofSet, groupBit_ofSet,
      groupBit_ofSet, h, and_or_left]

/-- A bitmap contains the code points of the domain whose bits are set. -/
theorem contains_iff {b : Bitmap} {c : CodePoint} :
    b.contains c = true ↔ c ≤ CodePoint.last ∧ groupBit b.groups c.toNat = true := by
  rw [contains, Lookup.contains_eq, Bool.and_eq_true, decide_eq_true_iff]
  rfl

/-- Looking a code point up in the bitmap of a set is asking the set. -/
theorem contains_ofSet (s : CodeSet) (c : CodePoint) : (ofSet s).contains c = s.contains c := by
  rw [Bool.eq_iff_iff, contains_iff, groupBit_ofSet, CodePoint.lt_domainSize, UInt32.ofNat_toNat]
  constructor
  · rintro ⟨-, -, h⟩
    exact h
  · intro h
    have hl := CodeSet.le_last_of_mem h
    exact ⟨hl, hl, h⟩

theorem mem_decode {b : Bitmap} {c : CodePoint} : c ∈ b.decode ↔ b.contains c = true := by
  rw [decode, CodeSet.mem_ofList, List.mem_filter, CodePoint.mem_domain]
  constructor
  · rintro ⟨⟨-, h⟩, -⟩
    exact h
  · intro h
    have hl := (contains_iff.mp h).1
    exact ⟨⟨hl, h⟩, hl⟩

theorem wellFormed_decode (b : Bitmap) : b.decode.WellFormed := .ofList _

/-- Packing never fails, and lays a set out bit by bit.  There are as many groups as the domain
needs, and the bit `i` of the group `g` is set just if `8 * g + i` lies in the domain and is a
member, so that the bits of the last group above the domain are clear.  The bitmap, its lookup table
and the set give the same answer for every code point, and the table and the set for every
character. -/
theorem pack_layout (s : CodeSet) :
    ∃ b, (pack s).outcome = .ok b ∧ b.groups.size = groupCount ∧
      groupCount = (CodePoint.last.toNat + 1) ⌈/⌉ groupBits ∧
      (∀ g < groupCount, ∃ group, b.groups[g]? = some group ∧ ∀ i < 8,
        (group.toNat.testBit i = true ↔
          8 * g + i ≤ CodePoint.last.toNat ∧ s.contains (UInt32.ofNat (8 * g + i)) = true)) ∧
      (∀ c, b.contains c = s.contains c ∧ b.lookup.contains c = s.contains c) ∧
      ∀ ch : Char, b.lookup.containsChar ch = s.contains ch.val := by
  refine ⟨ofSet s, pack_outcome s, size_ofSet s, ?_, ?_, ?_, ?_⟩
  · rw [Nat.ceilDiv_eq_add_pred_div, groupCount, CodePoint.domainSize]
  · intro g hg
    rw [← size_ofSet s] at hg
    have hgroup := Array.getElem?_eq_getElem hg
    refine ⟨_, hgroup, fun i hi ↦ ?_⟩
    rw [← groupBit_of_getElem? hgroup hi, groupBit_ofSet, CodePoint.domainSize, Nat.lt_succ_iff,
      CodeSet.mem_def]
  · intro c
    exact ⟨contains_ofSet s c, contains_ofSet s c⟩
  · intro ch
    exact contains_ofSet s ch.val

end Bitmap

end PropertyTable
