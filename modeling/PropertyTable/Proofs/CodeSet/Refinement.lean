import Mathlib.Data.Set.Basic
import PropertyTable.Proofs.Bitmap.Packing
import PropertyTable.Proofs.Listing.Members

/-!
# Sets as they are built

Sets come from the empty one by insertions, from a list of code points, from a listing and from a
bitmap.  `Built` follows any such history beside the mathematical set of what was put in, and every
set so built represents that mathematical set: words, size, answers and enumeration agree with it.
-/

namespace PropertyTable.CodeSet

/-- A set after any sequence of operations, with the code points of the domain that they put into
it.  A copy of a set is the set itself, so that copying needs no rule. -/
inductive Built : CodeSet → Set CodePoint → Prop
  /-- The set without members. -/
  | empty : Built .empty ∅
  /-- One more code point, in or above the domain, new or not. -/
  | insert {s : CodeSet} {members : Set CodePoint} (c : CodePoint) :
      Built s members → Built (s.insert c) (members ∪ {d | d = c ∧ d ≤ CodePoint.last})
  /-- One more range with any bounds. -/
  | insertRange {s : CodeSet} {members : Set CodePoint} (r : CodeRange) :
      Built s members → Built (s.insertRange r) (members ∪ {d | d ∈ r ∧ d ≤ CodePoint.last})
  /-- A list of code points, repetitions and code points above the domain included. -/
  | ofList (cs : List CodePoint) : Built (.ofList cs) {d | d ∈ cs ∧ d ≤ CodePoint.last}
  /-- A listing that could be read. -/
  | read {text : String} {s : CodeSet} : (Listing.read text).outcome = .ok s →
      Built s {d | ∃ line ∈ Listing.linesOf text,
        ∃ r, Listing.readEntry line = .ok (some r) ∧ d ∈ r}
  /-- Any bitmap, of whatever size. -/
  | decode (b : Bitmap) : Built b.decode {d | b.contains d = true}

/-- Some sequence of operations leads to a set. -/
def Reachable (s : CodeSet) : Prop := ∃ members, Built s members

/-- A set represents a mathematical set. -/
structure Represents (s : CodeSet) (members : Set CodePoint) : Prop where
  /-- The words are as many as the domain needs. -/
  size_words : s.words.size = CodePoint.last.toNat / 64 + 1
  /-- No access to the word of a code point of the domain is out of bounds. -/
  index_lt : ∀ c ≤ CodePoint.last, c.toNat / 64 < s.words.size
  /-- No bit stands for a code point above the domain. -/
  le_last : ∀ n, s.bit n = true → n ≤ CodePoint.last.toNat
  /-- The stored size is the number of bits. -/
  size_eq : s.size = s.bitCount
  /-- The set answers for its members. -/
  contains_iff : ∀ c, s.contains c = true ↔ c ∈ members
  /-- An insertion tells whether the code point lies in the domain and is new. -/
  add_iff : ∀ c, (s.add c).2 = true ↔ c ≤ CodePoint.last ∧ c ∉ members
  isEmpty_iff : s.isEmpty = true ↔ members = ∅
  /-- The members are listed, ... -/
  mem_toList_iff : ∀ c, c ∈ s.toList ↔ c ∈ members
  /-- ... each once and in ascending order, ... -/
  ascending : s.toList.Pairwise (· < ·)
  /-- ... as many as the size says. -/
  length_toList : s.toList.length = s.size

namespace Built

variable {s : CodeSet} {members : Set CodePoint}

/-- No history leaves a set that is not well formed. -/
theorem wellFormed (h : Built s members) : s.WellFormed := by
  induction h with
  | empty => exact .empty
  | insert c _ ih => exact ih.insert c
  | insertRange r _ ih => exact ih.insertRange r
  | ofList cs => exact .ofList cs
  | read h => exact Listing.wellFormed_of_read h
  | decode b => exact Bitmap.wellFormed_decode b

/-- Every history leaves the code points that were put in. -/
theorem mem_iff (h : Built s members) (c : CodePoint) : c ∈ s ↔ c ∈ members := by
  induction h with
  | empty => simp [not_mem_empty]
  | insert d h ih =>
    rw [mem_insert h.wellFormed.size_words, ih, Set.mem_union]
    refine or_congr_right (and_congr_right ?_)
    rintro rfl
    rfl
  | insertRange r h ih =>
    rw [mem_insertRange h.wellFormed, ih]
    rfl
  | ofList cs => exact mem_ofList
  | read h => exact Listing.mem_of_read h
  | decode b => exact Bitmap.mem_decode

/-- A set represents what was put into it, whatever the operations were and in whatever order. -/
theorem represents (h : Built s members) : Represents s members where
  size_words := h.wellFormed.size_words
  index_lt _ hc := index_lt_size_words h.wellFormed.size_words hc
  le_last := h.wellFormed.le_last
  size_eq := h.wellFormed.size_eq
  contains_iff := h.mem_iff
  add_iff c := by rw [add_snd, h.mem_iff]
  isEmpty_iff := by
    rw [h.wellFormed.isEmpty_iff, Set.eq_empty_iff_forall_notMem]
    exact forall_congr' fun c ↦ not_congr (h.mem_iff c)
  mem_toList_iff c := by rw [mem_toList, h.mem_iff]
  ascending := pairwise_toList s
  length_toList := h.wellFormed.length_toList

end Built

/-- A history with repetitions, an inverted range and a range that leaves the domain. -/
theorem represents_mixed_history :
    Represents ((((ofList [0x41, 0x41, 0xFFFFFFFF]).insertRange (.range 5 3)).insertRange
        (.range 0x31348 0xFFFFFFFF)).insert 0x42)
      ((({d | d ∈ [0x41, 0x41, 0xFFFFFFFF] ∧ d ≤ CodePoint.last}
          ∪ {d | d ∈ CodeRange.range 5 3 ∧ d ≤ CodePoint.last})
        ∪ {d | d ∈ CodeRange.range 0x31348 0xFFFFFFFF ∧ d ≤ CodePoint.last})
        ∪ {d | d = 0x42 ∧ d ≤ CodePoint.last}) :=
  (((Built.ofList [0x41, 0x41, 0xFFFFFFFF]).insertRange (.range 5 3)).insertRange
    (.range 0x31348 0xFFFFFFFF)).insert 0x42 |>.represents

end PropertyTable.CodeSet
