import PropertyTable.CodeRange

/-!
# Sets of code points

A set of code points of the domain is a map of bits, 64 to a word, with the number of its members
beside it.  Code points above the domain are never added.
-/

namespace PropertyTable

/-- A set of code points of the domain: the bit `c % 64` of the word `c / 64` stands for `c`. -/
structure CodeSet where
  /-- The bits, 64 to a word. -/
  words : Array UInt64
  /-- The number of members. -/
  size : Nat
deriving DecidableEq

namespace CodeSet

/-- The number of words that hold the domain. -/
def wordCount : Nat := CodePoint.last.toNat / 64 + 1

/-- The set without members. -/
def empty : CodeSet := ⟨Array.replicate wordCount 0, 0⟩

instance : EmptyCollection CodeSet := ⟨empty⟩

instance : Inhabited CodeSet := ⟨empty⟩

/-- Whether a set has no members. -/
def isEmpty (s : CodeSet) : Bool := s.size == 0

/-- The word that holds only the bit of a code point. -/
def mask (c : CodePoint) : UInt64 := 1 <<< UInt64.ofNat (c.toNat % 64)

/-- The word that holds the bit of a code point. -/
def word (s : CodeSet) (c : CodePoint) : UInt64 := s.words[c.toNat / 64]?.getD 0

/-- Whether a code point is a member. -/
def contains (s : CodeSet) (c : CodePoint) : Bool :=
  c ≤ CodePoint.last && (s.word c).toNat.testBit (c.toNat % 64)

/-- The bit at a position, which may lie above the domain. -/
def bit (s : CodeSet) (n : Nat) : Bool := (s.words[n / 64]?.getD 0).toNat.testBit (n % 64)

/-- A code point is a member if its bit is set. -/
instance : Membership CodePoint CodeSet where
  mem s c := s.contains c = true

/-- Adds a code point of the domain, and tells whether it was new. -/
def add (s : CodeSet) (c : CodePoint) : CodeSet × Bool :=
  if CodePoint.last < c then (s, false)
  else if s.word c &&& mask c ≠ 0 then (s, false)
  else (⟨s.words.modify (c.toNat / 64) (· ||| mask c), s.size + 1⟩, true)

/-- Adds a code point of the domain. -/
def insert (s : CodeSet) (c : CodePoint) : CodeSet := (s.add c).1

/-- Adds code points, those above the domain excepted. -/
def insertMany (s : CodeSet) (codes : List CodePoint) : CodeSet := codes.foldl insert s

/-- Adds the part of a range that lies in the domain. -/
def insertRange (s : CodeSet) (r : CodeRange) : CodeSet :=
  s.insertMany (r.upTo CodePoint.last).codes

/-- The set of the given code points of the domain. -/
def ofList (codes : List CodePoint) : CodeSet := empty.insertMany codes

/-- The members, ascending. -/
def toList (s : CodeSet) : List CodePoint := CodePoint.domain.filter s.contains

/-- The least member. -/
def first? (s : CodeSet) : Option CodePoint := s.toList.head?

/-- The greatest member. -/
def last? (s : CodeSet) : Option CodePoint := s.toList.getLast?

theorem mem_def {s : CodeSet} {c : CodePoint} : c ∈ s ↔ s.contains c = true := Iff.rfl

instance (c : CodePoint) (s : CodeSet) : Decidable (c ∈ s) := inferInstanceAs (Decidable (_ = true))

theorem mem_iff {s : CodeSet} {c : CodePoint} :
    c ∈ s ↔ c ≤ CodePoint.last ∧ s.bit c.toNat = true := by
  simp [mem_def, contains, bit, word]

/-- Only code points of the domain are members. -/
theorem le_last_of_mem {s : CodeSet} {c : CodePoint} (h : c ∈ s) : c ≤ CodePoint.last :=
  (mem_iff.mp h).1

/-- The list of a set holds its members. -/
@[simp] theorem mem_toList {s : CodeSet} {c : CodePoint} : c ∈ s.toList ↔ c ∈ s := by
  rw [toList, List.mem_filter, CodePoint.mem_domain]
  exact ⟨fun h ↦ h.2, fun h ↦ ⟨le_last_of_mem h, h⟩⟩

/-- The mask of a code point has its bit and no other. -/
theorem testBit_mask (c : CodePoint) (i : Nat) :
    (mask c).toNat.testBit i = decide (c.toNat % 64 = i) := by
  have h : c.toNat % 64 < 64 := Nat.mod_lt _ (by decide)
  have hp : 2 ^ (c.toNat % 64) < 2 ^ 64 := Nat.pow_lt_pow_right (by decide) h
  have hm : (mask c).toNat = 2 ^ (c.toNat % 64) := by
    simp [mask, UInt64.toNat_shiftLeft, UInt64.toNat_ofNat', Nat.shiftLeft_eq]
    omega
  rw [hm, Nat.testBit_two_pow]

/-- A word shares a bit with the mask of a code point if it has that bit. -/
theorem and_mask_ne_zero (w : UInt64) (c : CodePoint) :
    w &&& mask c ≠ 0 ↔ w.toNat.testBit (c.toNat % 64) = true := by
  rw [ne_eq, ← UInt64.toNat_inj, UInt64.toNat_and]
  constructor
  · intro h
    obtain ⟨i, hi⟩ := Nat.exists_testBit_of_ne_zero h
    rw [Nat.testBit_and, testBit_mask, Bool.and_eq_true, decide_eq_true_iff] at hi
    rw [hi.2]
    exact hi.1
  · intro h hz
    have := congrArg (·.testBit (c.toNat % 64)) hz
    simp [h, testBit_mask] at this

/-- A set with all its words has one for every code point of the domain. -/
theorem index_lt_size_words {s : CodeSet} (hs : s.words.size = wordCount) {c : CodePoint}
    (hc : c ≤ CodePoint.last) : c.toNat / 64 < s.words.size := by
  have h := UInt32.le_iff_toNat_le.mp hc
  rw [CodePoint.toNat_last] at h
  rw [hs, wordCount, CodePoint.toNat_last]
  omega

/-- Setting the bit of `d` sets no other bit. -/
theorem bit_modify {s : CodeSet} {d : CodePoint} (hd : d.toNat / 64 < s.words.size) (size n : Nat) :
    bit ⟨s.words.modify (d.toNat / 64) (· ||| mask d), size⟩ n
      = (s.bit n || decide (n = d.toNat)) := by
  have hn : n = d.toNat ↔ d.toNat / 64 = n / 64 ∧ d.toNat % 64 = n % 64 := by omega
  rw [bit, Array.getElem?_modify]
  split
  · next h =>
    rw [h] at hd
    simp [bit, hd, testBit_mask, hn, h]
  · next h => simp [bit, hn, h]

/-- Adding a code point of the domain sets its bit and no other. -/
theorem bit_insert {s : CodeSet} (hs : s.words.size = wordCount) {d : CodePoint}
    (hd : d ≤ CodePoint.last) (n : Nat) :
    (s.insert d).bit n = (s.bit n || decide (n = d.toNat)) := by
  unfold insert add
  rw [if_neg (UInt32.not_lt.mpr hd)]
  split
  · next h =>
    rw [and_mask_ne_zero] at h
    by_cases hn : n = d.toNat
    · rw [hn, show s.bit d.toNat = true from h]
      rfl
    · simp [hn]
  · exact bit_modify (index_lt_size_words hs hd) _ n

/-- A code point above the domain changes nothing. -/
theorem insert_of_last_lt {c : CodePoint} (h : CodePoint.last < c) (s : CodeSet) :
    s.insert c = s := by
  rw [insert, add, if_pos h]

/-- Inserting a code point of the domain adds it and nothing else. -/
theorem mem_insert {s : CodeSet} (hs : s.words.size = wordCount) {c d : CodePoint} :
    c ∈ s.insert d ↔ c ∈ s ∨ c = d ∧ d ≤ CodePoint.last := by
  rcases UInt32.lt_or_le CodePoint.last d with h | h
  · simp [insert_of_last_lt h, UInt32.not_le.mpr h]
  · rw [mem_iff, mem_iff, bit_insert hs h]
    by_cases hc : c = d
    · simp [hc, h]
    · simp [hc, UInt32.toNat_inj]

@[simp] theorem size_words_insert (s : CodeSet) (c : CodePoint) :
    (s.insert c).words.size = s.words.size := by
  unfold insert add
  split
  · rfl
  · split
    · rfl
    · exact Array.size_modify

@[simp] theorem insertMany_nil (s : CodeSet) : s.insertMany [] = s := rfl

@[simp] theorem insertMany_cons (s : CodeSet) (c : CodePoint) (cs : List CodePoint) :
    s.insertMany (c :: cs) = (s.insert c).insertMany cs := rfl

end CodeSet

end PropertyTable
