import PropertyTable.Proofs.CodeSet.Decomposition
import PropertyTable.Proofs.Listing.Account
import PropertyTable.Proofs.Listing.RoundTrip

/-!
# Repetitions in a listing

The total that reading tells counts a code point as often as it is named, and the size of the set
counts it once.  So the total is no less than the size, and the two are equal just if no code point
is named twice.
-/

namespace PropertyTable

/-! ## Counting with and without repetitions -/

namespace CodeRange

/-- No code point is listed twice if it is in no two of the ranges. -/
theorem nodup_flatMap_codes_iff {rs : List CodeRange} :
    (rs.flatMap codes).Nodup ↔ rs.Pairwise fun r q ↦ ∀ c ∈ r, c ∉ q := by
  have hcodes : ∀ r ∈ rs, r.codes.Nodup := fun r _ ↦ (pairwise_codes r).imp UInt32.ne_of_lt
  rw [List.nodup_flatMap, and_iff_right hcodes]
  refine List.Pairwise.iff fun {r q} ↦ ?_
  simp only [Function.onFun, List.Disjoint, mem_codes]

end CodeRange

namespace CodeSet

open CodeRange

variable {s : CodeSet} {rs : List CodeRange}

/-- A set has as many members as the ranges that hold them list different code points. -/
theorem WellFormed.size_eq_card (hs : s.WellFormed) (hm : ∀ c, (∃ r ∈ rs, c ∈ r) ↔ c ∈ s) :
    s.size = (rs.flatMap codes).toFinset.card := by
  have hset : s.toList.toFinset = (rs.flatMap codes).toFinset := by
    ext c
    simp only [List.mem_toFinset, mem_toList, List.mem_flatMap, mem_codes, hm]
  rw [← hs.length_toList, ← List.toFinset_card_of_nodup s.nodup_toList, hset]

/-- Ranges that hold a set name no fewer code points than it has members, ... -/
theorem WellFormed.size_le_sum (hs : s.WellFormed) (hm : ∀ c, (∃ r ∈ rs, c ∈ r) ↔ c ∈ s) :
    s.size ≤ (rs.map CodeRange.size).sum := by
  rw [hs.size_eq_card hm, ← length_flatMap_codes]
  exact List.toFinset_card_le _

/-- ... and as many just if no two of them have a code point in common. -/
theorem WellFormed.sum_eq_size_iff (hs : s.WellFormed) (hm : ∀ c, (∃ r ∈ rs, c ∈ r) ↔ c ∈ s) :
    (rs.map CodeRange.size).sum = s.size ↔ rs.Pairwise fun r q ↦ ∀ c ∈ r, c ∉ q := by
  rw [hs.size_eq_card hm, ← length_flatMap_codes, ← nodup_flatMap_codes_iff]
  constructor
  · exact fun h ↦ Multiset.coe_nodup.mp (Multiset.toFinset_card_eq_card_iff_nodup.mp h.symm)
  · exact fun h ↦ (List.toFinset_card_of_nodup h).symm

end CodeSet

namespace Listing

/-! ## What listings name -/

/-- The ranges of a listing hold its members. -/
theorem exists_mem_rangesOf {text : String} {s : CodeSet} (h : (read text).outcome = .ok s)
    (c : CodePoint) :
    (∃ r ∈ rangesOf (linesOf text), c ∈ r) ↔ c ∈ s :=
  mem_named_iff.symm.trans (mem_iff_named h).symm

/-- The lines of a written listing name the runs of its set. -/
theorem rangesOf_write {label : String} (h : '\n' ∉ label.toList) (s : CodeSet) :
    rangesOf (linesOf (write label s)) = s.runs := by
  rw [linesOf_write]
  exact (readable_and_rangesOf_eq (map_readEntry_lines_write h s)).2

/-- The total and the size.  Whenever a listing is read, its journal ends with the sum of the sizes
of the ranges that its lines name and with the size of its set.  The sum is no less than the size,
and equal to it just if no two of the lines name a code point in common.  So it is the size for
every listing that was written for a set, with any label in one line. -/
theorem total_eq_size_iff_disjoint :
    (∀ text s, (read text).outcome = .ok s →
      ∃ before total, (read text).events = before ++ [.listingRead total, .membersCounted s.size] ∧
        total = ((rangesOf (linesOf text)).map CodeRange.size).sum ∧ s.size ≤ total ∧
        (total = s.size ↔ (rangesOf (linesOf text)).Pairwise fun r q ↦ ∀ c ∈ r, c ∉ q)) ∧
    ∀ (label : String) (s : CodeSet), '\n' ∉ label.toList → s.Reachable →
      (read (write label s)).outcome = .ok s ∧
        ∃ before, (read (write label s)).events
          = before ++ [.listingRead s.size, .membersCounted s.size] := by
  constructor
  · intro text s hs
    have hm := exists_mem_rangesOf hs
    have hevents := read_events text
    rw [hs] at hevents
    exact ⟨_, _, hevents, rfl, (wellFormed_of_read hs).size_le_sum hm,
      (wellFormed_of_read hs).sum_eq_size_iff hm⟩
  · rintro label s h ⟨_, hs⟩
    have hok := read_write h hs.wellFormed
    have hevents := read_events (write label s)
    rw [hok, mentions, rangesOf_write h, hs.wellFormed.sum_size_runs] at hevents
    exact ⟨hok, _, hevents⟩

/-- Two lines that name a code point twice, two that do not, and a written listing. -/
theorem total_eq_size_iff_disjoint_samples :
    (∃ s before, (read "41..43\n42").outcome = .ok s ∧
      (read "41..43\n42").events = before ++ [.listingRead 4, .membersCounted s.size] ∧
      s.size < 4) ∧
    (∃ s before, (read "61\n41..43").outcome = .ok s ∧
      (read "61\n41..43").events = before ++ [.listingRead 4, .membersCounted 4]) ∧
    '\n' ∉ "a; # 41\r".toList ∧
    ∃ before, (read (write "a; # 41\r" (.ofList [0x41, 0x42, 0x61]))).events
      = before ++ [.listingRead (CodeSet.ofList [0x41, 0x42, 0x61]).size,
          .membersCounted (CodeSet.ofList [0x41, 0x42, 0x61]).size] := by
  obtain ⟨hread, hwrite⟩ := total_eq_size_iff_disjoint
  refine ⟨?_, ?_, by decide, (hwrite _ _ (by decide) ⟨_, .ofList _⟩).2⟩
  · have hranges : rangesOf (linesOf "41..43\n42") = [.range 0x41 0x43, .point 0x42] := by decide
    obtain ⟨s, hs⟩ := exists_read_ok (show Readable (linesOf "41..43\n42") by decide)
    obtain ⟨before, total, hevents, htotal, hle, hiff⟩ := hread _ _ hs
    rw [hranges] at htotal hiff
    obtain rfl : total = 4 := htotal
    refine ⟨s, before, hs, hevents, Nat.lt_of_le_of_ne hle fun heq ↦ ?_⟩
    have hpair := List.rel_of_pairwise_cons (hiff.mp heq.symm) List.mem_cons_self
    exact hpair 0x42 (by decide) (by decide)
  · have hranges : rangesOf (linesOf "61\n41..43") = [.point 0x61, .range 0x41 0x43] := by decide
    obtain ⟨s, hs⟩ := exists_read_ok (show Readable (linesOf "61\n41..43") by decide)
    obtain ⟨before, total, hevents, htotal, -, hiff⟩ := hread _ _ hs
    rw [hranges] at htotal hiff
    obtain rfl : total = 4 := htotal
    have hsize := hiff.mpr <| by
      refine List.pairwise_pair.mpr fun c hc hc' ↦ ?_
      simp only [CodeRange.mem_def, CodeRange.low_point, CodeRange.high_point, CodeRange.low_range,
        CodeRange.high_range, UInt32.le_iff_toNat_le, UInt32.reduceToNat] at hc hc'
      omega
    rw [← hsize] at hevents
    exact ⟨s, before, hs, hevents⟩

end Listing

end PropertyTable
