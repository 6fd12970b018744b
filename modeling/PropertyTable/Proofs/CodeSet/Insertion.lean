import PropertyTable.CodeSet.Runs
import PropertyTable.Proofs.CodeRange.Codes
import PropertyTable.Proofs.CodeSet.Bits

/-!
# Insertions one after another

What the members are after many insertions: those from before, and the inserted code points that lie
in the domain.  The order of insertions, repetitions and code points above the domain do not matter.
-/

namespace PropertyTable

namespace CodeSet

variable {s : CodeSet}

/-- Code points above the domain may be left out. -/
theorem insertMany_filter (s : CodeSet) (cs : List CodePoint) :
    s.insertMany (cs.filter (· ≤ CodePoint.last)) = s.insertMany cs := by
  induction cs generalizing s with
  | nil => rfl
  | cons c cs ih =>
    rcases UInt32.lt_or_le CodePoint.last c with h | h
    · rw [List.filter_cons_of_neg (by simpa using h), insertMany_cons, insert_of_last_lt h, ih]
    · rw [List.filter_cons_of_pos (by simpa using h), insertMany_cons, insertMany_cons, ih]

/-- Adding the part of a range that lies in the domain is adding all its code points in order. -/
theorem insertRange_eq_insertMany (s : CodeSet) (r : CodeRange) :
    s.insertRange r = s.insertMany r.codes := by
  rw [insertRange, CodeRange.codes_upTo, insertMany_filter]

theorem mem_insertMany (hs : s.WellFormed) {cs : List CodePoint} {c : CodePoint} :
    c ∈ s.insertMany cs ↔ c ∈ s ∨ c ∈ cs ∧ c ≤ CodePoint.last := by
  induction cs generalizing s with
  | nil => simp
  | cons d cs ih =>
    rw [insertMany_cons, ih (hs.insert d), mem_insert hs.size_words, List.mem_cons]
    constructor
    · rintro ((h | ⟨rfl, h⟩) | ⟨h, hl⟩)
      · exact .inl h
      · exact .inr ⟨.inl rfl, h⟩
      · exact .inr ⟨.inr h, hl⟩
    · rintro (h | ⟨rfl | h, hl⟩)
      · exact .inl (.inl h)
      · exact .inl (.inr ⟨rfl, hl⟩)
      · exact .inr ⟨h, hl⟩

theorem mem_insertRange (hs : s.WellFormed) {r : CodeRange} {c : CodePoint} :
    c ∈ s.insertRange r ↔ c ∈ s ∨ c ∈ r ∧ c ≤ CodePoint.last := by
  rw [insertRange_eq_insertMany, mem_insertMany hs, CodeRange.mem_codes]

theorem mem_ofList {cs : List CodePoint} {c : CodePoint} :
    c ∈ ofList cs ↔ c ∈ cs ∧ c ≤ CodePoint.last := by
  rw [ofList, mem_insertMany .empty]
  simp [not_mem_empty]

theorem WellFormed.ofList (cs : List CodePoint) : (ofList cs).WellFormed :=
  WellFormed.empty.insertMany cs

theorem WellFormed.foldl_insertRange (hs : s.WellFormed) (rs : List CodeRange) :
    (rs.foldl CodeSet.insertRange s).WellFormed := by
  induction rs generalizing s with
  | nil => exact hs
  | cons r rs ih => exact ih (hs.insertRange r)

theorem mem_foldl_insertRange (hs : s.WellFormed) {rs : List CodeRange} {c : CodePoint} :
    c ∈ rs.foldl CodeSet.insertRange s ↔ c ∈ s ∨ (∃ r ∈ rs, c ∈ r) ∧ c ≤ CodePoint.last := by
  induction rs generalizing s with
  | nil => simp
  | cons r rs ih =>
    rw [List.foldl_cons, ih (hs.insertRange r), mem_insertRange hs]
    simp only [List.mem_cons, exists_eq_or_imp]
    tauto

theorem WellFormed.ofRanges (rs : List CodeRange) : (ofRanges rs).WellFormed :=
  WellFormed.empty.foldl_insertRange rs

/-- Ranges cover what any of them covers, as far as it lies in the domain. -/
theorem mem_ofRanges {rs : List CodeRange} {c : CodePoint} :
    c ∈ ofRanges rs ↔ (∃ r ∈ rs, c ∈ r) ∧ c ≤ CodePoint.last := by
  rw [ofRanges, mem_foldl_insertRange .empty]
  simp [not_mem_empty]

end CodeSet

end PropertyTable
