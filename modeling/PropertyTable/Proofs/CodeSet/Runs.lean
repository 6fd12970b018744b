import PropertyTable.CodeSet.Runs
import PropertyTable.Proofs.CodeSet.Insertion

/-!
# What runs cover

The pass that finds the runs of a set goes through the members upwards.  The same runs are found by
putting the members in front of each other downwards, where no run is open and every step has runs
to speak of.  So the runs of a set hold its members and nothing else, and none of them is empty: the
set that its runs cover is the set itself.
-/

namespace PropertyTable.CodeSet

open CodeRange

/-! ## Finding runs downwards -/

/-- Puts a code point in front of runs that lie above it, extending the first run if it is next to
it. -/
def extendRuns (c : CodePoint) : List CodeRange → List CodeRange
  | [] => [.point c]
  | r :: rest =>
    if c.toNat + 1 = r.low.toNat then .ofBounds c r.high :: rest else .point c :: r :: rest

/-- Puts an open run in front of runs that lie above it, joining it to the first run if it is next
to it. -/
def joinRuns (low high : CodePoint) : List CodeRange → List CodeRange
  | [] => [.ofBounds low high]
  | r :: rest =>
    if high.toNat + 1 = r.low.toNat then .ofBounds low r.high :: rest
    else .ofBounds low high :: r :: rest

@[simp] theorem extendRuns_nil (c : CodePoint) : extendRuns c [] = [.point c] := rfl

theorem ofBounds_self (c : CodePoint) : ofBounds c c = point c := if_pos rfl

theorem joinRuns_self (c : CodePoint) (rs : List CodeRange) :
    joinRuns c c rs = extendRuns c rs := by
  cases rs <;> simp only [joinRuns, extendRuns, ofBounds_self]

/-- An open run swallows the code point next to it, and is closed by any other. -/
theorem joinRuns_extendRuns (low high c : CodePoint) (rs : List CodeRange) :
    joinRuns low high (extendRuns c rs)
      = if high.toNat + 1 = c.toNat then joinRuns low c rs
        else ofBounds low high :: extendRuns c rs := by
  cases rs with
  | nil => rfl
  | cons r rest =>
    rw [extendRuns]
    by_cases hr : c.toNat + 1 = r.low.toNat
    · simp only [if_pos hr, joinRuns, low_ofBounds, high_ofBounds]
    · have hj : joinRuns low c (r :: rest) = ofBounds low c :: r :: rest := if_neg hr
      rw [if_neg hr, hj]
      rfl

/-- The pass finds what is found downwards, given an open run below all that is still to be met. -/
theorem close_foldl_meet (closed : Array CodeRange) {low high : CodePoint} {cs : List CodePoint}
    (h : (high :: cs).Pairwise (· < ·)) :
    (cs.foldl Pass.meet ⟨closed, some (low, high)⟩).close
      = closed.toList ++ joinRuns low high (cs.foldr extendRuns []) := by
  induction cs generalizing closed low high with
  | nil => exact Array.toList_push ..
  | cons c cs ih =>
    obtain ⟨hhigh, hcs⟩ := List.pairwise_cons.mp h
    have hlt : high < c := hhigh c List.mem_cons_self
    have hnext : high + 1 = c ↔ high.toNat + 1 = c.toNat := by
      rw [← UInt32.toNat_inj, CodePoint.toNat_add_one hlt]
    rw [List.foldl_cons, List.foldr_cons, joinRuns_extendRuns, Pass.meet]
    simp only [hnext]
    split
    · exact ih closed hcs
    · rw [ih _ hcs, joinRuns_self, Array.toList_push, List.append_assoc, List.singleton_append]

/-- The runs of a set are found downwards as well. -/
theorem runs_eq_foldr (s : CodeSet) : s.runs = s.toList.foldr extendRuns [] := by
  have h := pairwise_toList s
  rw [runs]
  cases hs : s.toList with
  | nil => rfl
  | cons c cs =>
    rw [hs] at h
    rw [List.foldl_cons, List.foldr_cons, ← joinRuns_self]
    exact close_foldl_meet #[] h

/-! ## One code point in front -/

/-- A range that is extended by the code point before it holds this one beside its own. -/
theorem mem_ofBounds_iff {c d : CodePoint} {r : CodeRange} (hr : r.low ≤ r.high)
    (hc : c.toNat + 1 = r.low.toNat) : d ∈ CodeRange.ofBounds c r.high ↔ d = c ∨ d ∈ r := by
  simp only [CodeRange.mem_def, CodeRange.low_ofBounds, CodeRange.high_ofBounds,
    UInt32.le_iff_toNat_le, ← UInt32.toNat_inj] at hr ⊢
  omega

theorem mem_point_iff {c d : CodePoint} : d ∈ CodeRange.point c ↔ d = c := by
  rw [CodeRange.mem_def, CodeRange.low_point, CodeRange.high_point, UInt32.le_antisymm_iff,
    and_comm]

theorem low_le_high_of_mem_extendRuns {c : CodePoint} {rs : List CodeRange}
    (h : ∀ r ∈ rs, r.low ≤ r.high) : ∀ r ∈ extendRuns c rs, r.low ≤ r.high := by
  cases rs with
  | nil => simp
  | cons r rest =>
    obtain ⟨hr, h⟩ := List.forall_mem_cons.mp h
    rw [extendRuns]
    split
    · next hc =>
      refine List.forall_mem_cons.mpr ⟨?_, h⟩
      rw [CodeRange.low_ofBounds, CodeRange.high_ofBounds, UInt32.le_iff_toNat_le]
      rw [UInt32.le_iff_toNat_le] at hr
      omega
    · exact List.forall_mem_cons.mpr ⟨UInt32.le_refl c, List.forall_mem_cons.mpr ⟨hr, h⟩⟩

/-- With a code point in front, runs cover this one beside what they covered before. -/
theorem exists_mem_extendRuns {c d : CodePoint} {rs : List CodeRange}
    (h : ∀ r ∈ rs, r.low ≤ r.high) : (∃ r ∈ extendRuns c rs, d ∈ r) ↔ d = c ∨ ∃ r ∈ rs, d ∈ r := by
  cases rs with
  | nil => simp [mem_point_iff]
  | cons r rest =>
    rw [extendRuns]
    split
    · next hc =>
      simp only [List.exists_mem_cons_iff, mem_ofBounds_iff (h r List.mem_cons_self) hc, or_assoc]
    · simp only [List.exists_mem_cons_iff, mem_point_iff]

/-! ## All members -/

theorem low_le_high_of_mem_foldr {cs : List CodePoint} :
    ∀ r ∈ cs.foldr extendRuns [], r.low ≤ r.high := by
  induction cs with
  | nil => exact List.forall_mem_nil _
  | cons c cs ih => exact low_le_high_of_mem_extendRuns ih

theorem exists_mem_foldr {cs : List CodePoint} {d : CodePoint} :
    (∃ r ∈ cs.foldr extendRuns [], d ∈ r) ↔ d ∈ cs := by
  induction cs with
  | nil => simp
  | cons c cs ih =>
    rw [List.foldr_cons, exists_mem_extendRuns low_le_high_of_mem_foldr, ih, List.mem_cons]

variable {s : CodeSet} {r : CodeRange}

theorem low_le_high_of_mem_runs (hr : r ∈ s.runs) : r.low ≤ r.high := by
  rw [runs_eq_foldr] at hr
  exact low_le_high_of_mem_foldr r hr

/-- The runs hold the members. -/
theorem exists_mem_runs {c : CodePoint} : (∃ r ∈ s.runs, c ∈ r) ↔ c ∈ s := by
  rw [runs_eq_foldr, exists_mem_foldr, mem_toList]

/-- The upper bound of a run is a member, so that no run leaves the domain. -/
theorem high_le_last_of_mem_runs (hr : r ∈ s.runs) : r.high ≤ CodePoint.last :=
  le_last_of_mem (exists_mem_runs.mp ⟨r, hr, low_le_high_of_mem_runs hr, UInt32.le_refl _⟩)

/-- A set is what its runs cover. -/
theorem WellFormed.ofRanges_runs (hs : s.WellFormed) : CodeSet.ofRanges s.runs = s := by
  refine (WellFormed.ofRanges s.runs).ext hs fun c ↦ ?_
  rw [mem_ofRanges, exists_mem_runs, and_iff_left_iff_imp]
  exact le_last_of_mem

end PropertyTable.CodeSet
