import PropertyTable.Proofs.CodeSet.Refinement
import PropertyTable.Proofs.CodeSet.Runs

/-!
# Equality of sets

Sets are compared by their words and their sizes.  No history leaves anything else in them than its
code points, so that two sets are equal just if they have the same members, whatever their histories
are.
-/

namespace PropertyTable.CodeSet

/-! ## Insertions in any order -/

/-- One insertion. -/
inductive Insertion where
  /-- A code point, in or above the domain. -/
  | code (c : CodePoint)
  /-- A range with any bounds. -/
  | range (r : CodeRange)

namespace Insertion

/-- The code points that an insertion names, in or above the domain. -/
instance : Membership CodePoint Insertion where
  mem i d := match i with
    | code c => d = c
    | range r => d ∈ r

/-- Inserts into a set. -/
def perform (s : CodeSet) : Insertion → CodeSet
  | code c => s.insert c
  | range r => s.insertRange r

theorem mem_code {c d : CodePoint} : d ∈ code c ↔ d = c := Iff.rfl

theorem mem_range {r : CodeRange} {d : CodePoint} : d ∈ range r ↔ d ∈ r := Iff.rfl

end Insertion

namespace Built

variable {s t : CodeSet} {members members' : Set CodePoint}

theorem perform (h : Built s members) (i : Insertion) :
    Built (i.perform s) (members ∪ {d | d ∈ i ∧ d ≤ CodePoint.last}) := by
  cases i with
  | code c => exact h.insert c
  | range r => exact h.insertRange r

/-- Insertions one after another put in what any of them names, as far as it lies in the domain. -/
theorem foldl_perform (h : Built s members) (is : List Insertion) :
    Built (is.foldl Insertion.perform s)
      (members ∪ {d | (∃ i ∈ is, d ∈ i) ∧ d ≤ CodePoint.last}) := by
  induction is generalizing s members with
  | nil => simpa using h
  | cons i is ih =>
    have hu : members ∪ {d | (∃ j ∈ i :: is, d ∈ j) ∧ d ≤ CodePoint.last}
        = members ∪ {d | d ∈ i ∧ d ≤ CodePoint.last}
          ∪ {d | (∃ j ∈ is, d ∈ j) ∧ d ≤ CodePoint.last} := by
      ext d
      simp only [List.exists_mem_cons_iff, Set.mem_union, Set.mem_ofPred_eq, or_and_right, or_assoc]
    rw [hu]
    exact ih (h.perform i)

/-- Two histories lead to one value just if they put in the same code points. -/
theorem eq_iff (hs : Built s members) (ht : Built t members') : s = t ↔ members = members' := by
  constructor
  · rintro rfl
    ext c
    rw [← hs.mem_iff, ht.mem_iff]
  · rintro rfl
    apply hs.wellFormed.ext ht.wellFormed
    intro c
    rw [hs.mem_iff, ht.mem_iff]

end Built

/-! ## Insertions of what a set holds -/

/-- A set is what its list of members gives. -/
theorem WellFormed.ofList_toList {s : CodeSet} (hs : s.WellFormed) :
    CodeSet.ofList s.toList = s := by
  apply (WellFormed.ofList s.toList).ext hs
  intro c
  rw [mem_ofList, mem_toList, and_iff_left_iff_imp]
  exact le_last_of_mem

/-- Comparing words and sizes is comparing members.  Two sets that were built in any way are equal
just if they answer alike for every code point, in or above the domain, and so just if the same code
points of the domain were put in.  Any two sequences of insertions that name the same code points of
the domain give equal sets, and the members of a set, or its runs, inserted into the empty set give
it back. -/
theorem beq_iff_contains_eq :
    (∀ s t : CodeSet, s.Reachable → t.Reachable →
      ((s == t) = true ↔ ∀ c, s.contains c = t.contains c)) ∧
    (∀ (s t : CodeSet) (members members' : Set CodePoint), Built s members → Built t members' →
      ((s == t) = true ↔ members = members')) ∧
    (∀ is js : List Insertion,
      (∀ c ≤ CodePoint.last, (∃ i ∈ is, c ∈ i) ↔ ∃ j ∈ js, c ∈ j) →
      (is.foldl Insertion.perform empty == js.foldl Insertion.perform empty) = true) ∧
    (∀ s : CodeSet, s.Reachable → ofList s.toList = s ∧ s.runs.foldl insertRange empty = s) := by
  simp only [beq_iff_eq]
  refine ⟨?_, ?_, ?_, ?_⟩
  · rintro s t ⟨_, hs⟩ ⟨_, ht⟩
    exact hs.wellFormed.eq_iff ht.wellFormed
  · intro s t members members' hs ht
    exact hs.eq_iff ht
  · intro is js h
    apply ((Built.empty.foldl_perform is).eq_iff (Built.empty.foldl_perform js)).mpr
    ext c
    simp only [Set.mem_union, Set.mem_ofPred_eq]
    exact or_congr_right (and_congr_left (h c))
  · rintro s ⟨_, hs⟩
    exact ⟨hs.wellFormed.ofList_toList, hs.wellFormed.ofRanges_runs⟩

/-- Code points in reverse, repeated and above the domain, against a range that is split and one
that is inverted. -/
theorem beq_two_histories :
    let s := [Insertion.code 0x43, .code 0x42, .code 0x43, .code 0x41, .code 0xFFFFFFFF].foldl
      Insertion.perform empty
    let t := [Insertion.range (.range 0x41 0x42), .range (.range 5 3), .range (.point 0x43)].foldl
      Insertion.perform empty
    (s == t) = true ∧ (∀ c, s.contains c = t.contains c) ∧ ofList s.toList = s ∧
      s.runs.foldl insertRange empty = s := by
  intro s t
  obtain ⟨hc, -, hi, hr⟩ := beq_iff_contains_eq
  have hs : s.Reachable := ⟨_, Built.empty.foldl_perform _⟩
  have ht : t.Reachable := ⟨_, Built.empty.foldl_perform _⟩
  have hst : (s == t) = true := by
    apply hi
    intro c hl
    simp only [List.exists_mem_cons_iff, List.not_mem_nil, false_and, exists_false, or_false,
      Insertion.mem_code, Insertion.mem_range, CodeRange.mem_def, CodeRange.low_range,
      CodeRange.high_range, CodeRange.low_point, CodeRange.high_point, ← UInt32.toNat_inj,
      UInt32.le_iff_toNat_le, CodePoint.toNat_last, UInt32.reduceToNat] at hl ⊢
    omega
  obtain ⟨hlist, hruns⟩ := hr s hs
  exact ⟨hst, (hc s t hs ht).mp hst, hlist, hruns⟩

end PropertyTable.CodeSet
