import Mathlib.Algebra.GroupWithZero.Nat
import Mathlib.Data.Nat.Count
import PropertyTable.CodeSet

/-!
# The bits of a set

A set is well formed if it has all its words, no bit above the domain, and the number of its bits
beside them.  Insertions keep sets well formed, and a well-formed set is determined by its members:
nothing of the way in which it was built is left in it.
-/

namespace PropertyTable.CodeSet

/-- The number of bits that are set, word by word. -/
def bitCount (s : CodeSet) : Nat :=
  (s.words.toList.map fun w ↦ Nat.count (w.toNat.testBit · = true) 64).sum

/-- The map has its full length, holds code points of the domain only, and its bits are counted. -/
structure WellFormed (s : CodeSet) : Prop where
  /-- No word is missing. -/
  size_words : s.words.size = wordCount
  /-- No bit stands for a code point above the domain. -/
  le_last : ∀ n, s.bit n = true → n ≤ CodePoint.last.toNat
  /-- The size is the number of bits. -/
  size_eq : s.size = s.bitCount

/-! ## Counting -/

private theorem count_testBit_words (ws : List UInt64) :
    Nat.count (fun n ↦ (ws[n / 64]?.getD 0).toNat.testBit (n % 64) = true) (64 * ws.length)
      = (ws.map fun w ↦ Nat.count (w.toNat.testBit · = true) 64).sum := by
  induction ws with
  | nil => rfl
  | cons w ws ih =>
    have hl : 64 * (w :: ws).length = 64 + 64 * ws.length := by rw [List.length_cons]; omega
    rw [hl, Nat.count_add, List.map_cons, List.sum_cons, ← ih]
    refine congrArg₂ (· + ·) (List.countP_congr fun n hn ↦ ?_) (List.countP_congr fun n _ ↦ ?_)
    · have hn : n < 64 := List.mem_range.mp hn
      simp [Nat.div_eq_of_lt hn, Nat.mod_eq_of_lt hn]
    · simp [Nat.add_div_left]

theorem bitCount_eq_count (s : CodeSet) :
    s.bitCount = Nat.count (s.bit · = true) (64 * s.words.size) := by
  rw [bitCount, ← count_testBit_words, Array.length_toList]
  exact List.countP_congr fun n _ ↦ by simp only [Array.getElem?_toList]; rfl

/-- Bits above the domain are not set, so that only those of the domain count. -/
theorem bitCount_eq_count_domain {s : CodeSet} (hs : s.words.size = wordCount)
    (hl : ∀ n, s.bit n = true → n ≤ CodePoint.last.toNat) :
    s.bitCount = Nat.count (s.bit · = true) CodePoint.domainSize := by
  rw [bitCount_eq_count, hs, show 64 * wordCount = CodePoint.domainSize + 53 from rfl,
    Nat.count_add, Nat.add_eq_left]
  refine Nat.count_of_forall_not fun n _ hn ↦ ?_
  have := hl _ hn
  rw [CodePoint.toNat_last, CodePoint.domainSize_eq] at this
  omega

/-- One more position counts once. -/
theorem count_or_eq {p : Nat → Bool} {d : Nat} (hd : p d = false) {n : Nat} (hn : d < n) :
    Nat.count (fun k ↦ (p k || decide (k = d)) = true) n = Nat.count (p · = true) n + 1 := by
  induction n with
  | zero => omega
  | succ n ih =>
    rw [Nat.count_succ, Nat.count_succ]
    rcases Nat.lt_succ_iff_lt_or_eq.mp hn with h | rfl
    · have hne : n ≠ d := by omega
      simp only [ih h, hne, decide_false, Bool.or_false]
      omega
    · have heq : Nat.count (fun k ↦ (p k || decide (k = d)) = true) d
          = Nat.count (p · = true) d := by
        refine List.countP_congr fun k hk ↦ ?_
        have : k ≠ d := (List.mem_range.mp hk).ne
        simp [this]
      rw [heq]
      simp [hd]

/-! ## Insertion -/

theorem mem_iff_bit {s : CodeSet} {c : CodePoint} (hc : c ≤ CodePoint.last) :
    c ∈ s ↔ s.bit c.toNat = true := by simp [mem_iff, hc]

/-- A code point is new if it lies in the domain and is no member. -/
theorem add_snd {s : CodeSet} {c : CodePoint} :
    (s.add c).2 = true ↔ c ≤ CodePoint.last ∧ c ∉ s := by
  unfold add
  split
  · next h => simp [UInt32.not_le.mpr h]
  · next h =>
    have hc := UInt32.not_lt.mp h
    rw [mem_iff_bit hc]
    split
    · next hb => simpa [hc, bit, word] using (and_mask_ne_zero _ _).mp hb
    · next hb => simpa [hc, bit, word] using mt (and_mask_ne_zero _ _).mpr hb

/-- The size grows by one for a new code point. -/
theorem size_insert (s : CodeSet) (c : CodePoint) :
    (s.insert c).size = if c ≤ CodePoint.last ∧ c ∉ s then s.size + 1 else s.size := by
  simp only [← add_snd]
  unfold insert add
  split
  · rfl
  · split <;> rfl

/-- A member that is added again changes nothing. -/
theorem insert_of_mem {s : CodeSet} {c : CodePoint} (h : c ∈ s) : s.insert c = s := by
  unfold insert add
  split
  · rfl
  · rw [if_pos]
    exact (and_mask_ne_zero _ _).mpr (mem_iff.mp h).2

theorem bit_empty (n : Nat) : empty.bit n = false := by
  have h : empty.words[n / 64]?.getD 0 = 0 := by
    rw [empty, Array.getElem?_replicate]
    split <;> rfl
  simp [bit, h]

theorem size_words_empty : empty.words.size = wordCount := Array.size_replicate

theorem not_mem_empty (c : CodePoint) : c ∉ empty := by simp [mem_iff, bit_empty]

theorem WellFormed.empty : WellFormed empty where
  size_words := size_words_empty
  le_last n h := by simp [bit_empty] at h
  size_eq := by
    rw [bitCount_eq_count]
    simp only [bit_empty, Bool.false_eq_true, Nat.count_false]
    rfl

namespace WellFormed

variable {s t : CodeSet}

/-- An insertion keeps a set well formed: it sets one bit of the domain and counts it, or does
nothing. -/
theorem insert (hs : s.WellFormed) (c : CodePoint) : (s.insert c).WellFormed := by
  rcases UInt32.lt_or_le CodePoint.last c with h | h
  · rw [insert_of_last_lt h]
    exact hs
  by_cases hm : c ∈ s
  · rw [insert_of_mem hm]
    exact hs
  have hb : s.bit c.toNat = false := by simpa [mem_iff_bit h] using hm
  have hw : (s.insert c).words.size = wordCount := by rw [size_words_insert, hs.size_words]
  have hl : ∀ n, (s.insert c).bit n = true → n ≤ CodePoint.last.toNat := by
    intro n hn
    rw [bit_insert hs.size_words h, Bool.or_eq_true, decide_eq_true_iff] at hn
    rcases hn with hn | rfl
    · exact hs.le_last n hn
    · exact UInt32.le_iff_toNat_le.mp h
  refine ⟨hw, hl, ?_⟩
  rw [size_insert, if_pos ⟨h, hm⟩, hs.size_eq, bitCount_eq_count_domain hw hl,
    bitCount_eq_count_domain hs.size_words hs.le_last]
  simp only [bit_insert hs.size_words h]
  exact (count_or_eq hb (CodePoint.lt_domainSize.mpr h)).symm

theorem insertMany (hs : s.WellFormed) (cs : List CodePoint) : (s.insertMany cs).WellFormed := by
  induction cs generalizing s with
  | nil => exact hs
  | cons c cs ih => exact ih (hs.insert c)

theorem insertRange (hs : s.WellFormed) (r : CodeRange) : (s.insertRange r).WellFormed :=
  hs.insertMany _

/-- Two words with the same bits are one. -/
private theorem eq_of_testBit_eq {v w : UInt64}
    (h : ∀ i < 64, v.toNat.testBit i = w.toNat.testBit i) :
    v = w := by
  rw [← UInt64.toNat_inj]
  refine Nat.eq_of_testBit_eq fun i ↦ ?_
  rcases Nat.lt_or_ge i 64 with hi | hi
  · exact h i hi
  · have hp : 2 ^ 64 ≤ 2 ^ i := Nat.pow_le_pow_right (by decide) hi
    rw [Nat.testBit_lt_two_pow (v.toNat_lt.trans_le hp),
      Nat.testBit_lt_two_pow (w.toNat_lt.trans_le hp)]

/-- Well-formed sets with the same members have the same words and the same size. -/
theorem ext (hs : s.WellFormed) (ht : t.WellFormed) (h : ∀ c, c ∈ s ↔ c ∈ t) : s = t := by
  have hb : ∀ n, s.bit n = t.bit n := by
    intro n
    rcases Nat.lt_or_ge CodePoint.last.toNat n with hn | hn
    · have hs' : s.bit n ≠ true := fun hn' ↦ Nat.not_le.mpr hn (hs.le_last n hn')
      have ht' : t.bit n ≠ true := fun hn' ↦ Nat.not_le.mpr hn (ht.le_last n hn')
      rw [Bool.eq_false_iff.mpr hs', Bool.eq_false_iff.mpr ht']
    · have hn := Nat.lt_succ_of_le hn
      have hc := CodePoint.ofNat_le_last hn
      have := h (UInt32.ofNat n)
      rw [mem_iff_bit hc, mem_iff_bit hc, CodePoint.toNat_ofNat hn] at this
      exact Bool.eq_iff_iff.mpr this
  have hw : s.words = t.words := by
    refine Array.ext (hs.size_words.trans ht.size_words.symm) fun i hi hj ↦
      eq_of_testBit_eq fun j hj' ↦ ?_
    have := hb (64 * i + j)
    have hd : (64 * i + j) / 64 = i := by omega
    have hm : (64 * i + j) % 64 = j := by omega
    simpa [bit, hd, hm, hi, hj] using this
  have hz : s.size = t.size := by rw [hs.size_eq, ht.size_eq, bitCount, bitCount, hw]
  cases s
  cases t
  simp_all

/-- Well-formed sets are equal if they answer alike. -/
theorem eq_iff (hs : s.WellFormed) (ht : t.WellFormed) :
    s = t ↔ ∀ c, s.contains c = t.contains c := by
  constructor
  · rintro rfl c
    rfl
  · intro h
    refine hs.ext ht fun c ↦ ?_
    rw [mem_def, h, mem_def]

end WellFormed

/-! ## Enumeration -/

/-- The members are the positions of the bits of the domain. -/
theorem toList_eq_map (s : CodeSet) :
    s.toList = ((List.range CodePoint.domainSize).filter s.bit).map UInt32.ofNat := by
  rw [toList, CodePoint.domain, List.filter_map]
  refine congrArg (List.map UInt32.ofNat) (List.filter_congr fun n hn ↦ ?_)
  have hn := List.mem_range.mp hn
  simp [contains, CodePoint.ofNat_le_last hn, bit, word, CodePoint.toNat_ofNat hn]

/-- The members are listed in ascending order. -/
theorem pairwise_toList (s : CodeSet) : s.toList.Pairwise (· < ·) := by
  rw [toList_eq_map, List.pairwise_map]
  have hr := List.pairwise_lt_range (n := CodePoint.domainSize)
  refine (hr.filter s.bit).imp_of_mem fun {m n} hm hn h ↦ ?_
  have hm := List.mem_range.mp (List.mem_of_mem_filter hm)
  have hn := List.mem_range.mp (List.mem_of_mem_filter hn)
  rwa [UInt32.lt_iff_toNat_lt, CodePoint.toNat_ofNat hm, CodePoint.toNat_ofNat hn]

theorem nodup_toList (s : CodeSet) : s.toList.Nodup := (pairwise_toList s).imp UInt32.ne_of_lt

private theorem length_filter_range (s : CodeSet) (n : Nat) :
    ((List.range n).filter s.bit).length = Nat.count (s.bit · = true) n := by
  simp [Nat.count, List.countP_eq_length_filter]

/-- The size of a well-formed set is the number of its members. -/
theorem WellFormed.length_toList {s : CodeSet} (hs : s.WellFormed) : s.toList.length = s.size := by
  rw [toList_eq_map, List.length_map, length_filter_range, hs.size_eq,
    bitCount_eq_count_domain hs.size_words hs.le_last]

theorem WellFormed.isEmpty_iff {s : CodeSet} (hs : s.WellFormed) :
    s.isEmpty = true ↔ ∀ c, c ∉ s := by
  rw [isEmpty, beq_iff_eq, ← hs.length_toList, List.length_eq_zero_iff,
    List.eq_nil_iff_forall_not_mem]
  simp

end PropertyTable.CodeSet
