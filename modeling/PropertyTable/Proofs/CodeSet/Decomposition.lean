import Mathlib.Data.List.Chain
import PropertyTable.Proofs.CodeSet.Refinement
import PropertyTable.Proofs.CodeSet.Runs

/-!
# Runs are the only decomposition

Ranges are separated if they ascend and leave a gap between any two neighbours, so that none of them
could be joined to the next one.  The runs of a set are separated, and no other separated ranges
hold the same code points: listing the code points of separated ranges and collecting runs again
gives back the ranges.  Nor do fewer ranges cover the set in any other way, since a range has to
begin wherever a run does.
-/

namespace PropertyTable

/-! ## Single ranges -/

namespace CodeRange

/-- A point, or a range with more than one code point. -/
def Proper : CodeRange → Prop
  | point _ => True
  | range low high => low < high

instance : DecidablePred Proper
  | point _ => .isTrue trivial
  | range low high => inferInstanceAs (Decidable (low < high))

variable {r : CodeRange} {l h : CodePoint}

theorem Proper.low_le_high (hr : r.Proper) : r.low ≤ r.high := by
  cases r with
  | point c => exact UInt32.le_refl c
  | range l h => exact UInt32.le_of_lt hr

/-- Proper ranges are known by their bounds. -/
theorem Proper.ofBounds_eq (hr : r.Proper) : ofBounds r.low r.high = r := by
  cases r with
  | point c => exact if_pos rfl
  | range l h => exact if_neg (UInt32.ne_of_lt hr)

theorem proper_ofBounds (hlh : l ≤ h) : (ofBounds l h).Proper := by
  unfold ofBounds
  split
  · exact trivial
  · next hne => exact UInt32.lt_of_le_of_ne hlh hne

theorem length_flatMap_codes (rs : List CodeRange) :
    (rs.flatMap codes).length = (rs.map size).sum := by
  simp only [List.length_flatMap, length_codes]

end CodeRange

namespace CodeSet

open CodeRange

variable {s : CodeSet} {rs : List CodeRange}

/-! ## Separated ranges -/

/-- Ranges ascend, each of them a point or a range with more than one code point, and between
neighbours there is a code point that neither holds. -/
structure Separated (rs : List CodeRange) : Prop where
  proper : ∀ r ∈ rs, r.Proper
  gap : rs.IsChain fun r q ↦ r.high.toNat + 1 < q.low.toNat

instance (rs : List CodeRange) : Decidable (Separated rs) :=
  decidable_of_iff ((∀ r ∈ rs, r.Proper) ∧ rs.IsChain fun r q ↦ r.high.toNat + 1 < q.low.toNat)
    ⟨fun h ↦ ⟨h.1, h.2⟩, fun h ↦ ⟨h.proper, h.gap⟩⟩

theorem separated_nil : Separated [] := ⟨List.forall_mem_nil _, .nil⟩

theorem separated_cons {r : CodeRange} : Separated (r :: rs) ↔
    r.Proper ∧ (∀ q ∈ rs.head?, r.high.toNat + 1 < q.low.toNat) ∧ Separated rs := by
  constructor
  · rintro ⟨hp, hg⟩
    obtain ⟨hr, hp⟩ := List.forall_mem_cons.mp hp
    obtain ⟨hq, hg⟩ := List.isChain_cons.mp hg
    exact ⟨hr, hq, hp, hg⟩
  · rintro ⟨hr, hq, hp, hg⟩
    exact ⟨List.forall_mem_cons.mpr ⟨hr, hp⟩, List.isChain_cons.mpr ⟨hq, hg⟩⟩

namespace Separated

/-- There is a gap between any two ranges, neighbours or not. -/
theorem pairwise (hs : Separated rs) : rs.Pairwise fun r q ↦ r.high.toNat + 1 < q.low.toNat := by
  induction rs with
  | nil => exact .nil
  | cons r rs ih =>
    obtain ⟨-, hr, hs⟩ := separated_cons.mp hs
    refine List.pairwise_cons.mpr ⟨?_, ih hs⟩
    cases rs with
    | nil => exact List.forall_mem_nil _
    | cons q rs =>
      have hq : r.high.toNat + 1 < q.low.toNat := hr q rfl
      refine List.forall_mem_cons.mpr ⟨hq, fun p hp ↦ ?_⟩
      have hqp := List.rel_of_pairwise_cons (ih hs) hp
      have hle := UInt32.le_iff_toNat_le.mp (hs.proper q List.mem_cons_self).low_le_high
      omega

/-- The code points of separated ranges, one range after another, ascend. -/
theorem pairwise_flatMap_codes (hs : Separated rs) : (rs.flatMap codes).Pairwise (· < ·) := by
  refine List.pairwise_flatMap.mpr ⟨fun r _ ↦ pairwise_codes r, hs.pairwise.imp ?_⟩
  intro r q hrq c hc d hd
  rw [mem_codes, mem_iff_toNat] at hc hd
  rw [UInt32.lt_iff_toNat_lt]
  omega

end Separated

/-! ## Collecting runs -/

/-- A code point with a gap after it is a run of its own. -/
theorem extendRuns_of_gap {c : CodePoint} (h : ∀ q ∈ rs.head?, c.toNat + 1 < q.low.toNat) :
    extendRuns c rs = .point c :: rs := by
  cases rs with
  | nil => rfl
  | cons q rs => exact if_neg (h q rfl).ne

/-- With a code point in front, separated ranges stay separated. -/
theorem separated_extendRuns (hs : Separated rs) {c : CodePoint} (hc : ∀ q ∈ rs.head?, c < q.low) :
    Separated (extendRuns c rs) := by
  cases rs with
  | nil => exact separated_cons.mpr ⟨trivial, nofun, separated_nil⟩
  | cons r rs =>
    have hcr := UInt32.lt_iff_toNat_lt.mp (hc r rfl)
    rw [extendRuns]
    split
    · obtain ⟨hr, hgap, hs⟩ := separated_cons.mp hs
      have hle : c ≤ r.high := UInt32.le_trans (UInt32.le_of_lt (hc r rfl)) hr.low_le_high
      refine separated_cons.mpr ⟨proper_ofBounds hle, ?_, hs⟩
      rwa [high_ofBounds]
    · next hne =>
      refine separated_cons.mpr ⟨trivial, ?_, hs⟩
      rintro q ⟨⟩
      rw [high_point]
      omega

/-- Runs are collected from ascending code points with gaps between them. -/
theorem separated_foldr {cs : List CodePoint} (h : cs.Pairwise (· < ·)) :
    Separated (cs.foldr extendRuns []) := by
  induction cs with
  | nil => exact separated_nil
  | cons c cs ih =>
    obtain ⟨hc, h⟩ := List.pairwise_cons.mp h
    refine separated_extendRuns (ih h) fun q hq ↦ hc _ ?_
    -- The first run begins with a code point that was collected, all of which lie above `c`.
    have hm := List.mem_of_head? hq
    exact exists_mem_foldr.mp ⟨q, hm, UInt32.le_refl _, low_le_high_of_mem_foldr q hm⟩

theorem separated_runs (s : CodeSet) : Separated s.runs := by
  rw [runs_eq_foldr]
  exact separated_foldr (pairwise_toList s)

/-- Code points from one bound to another are collected into one run, if there is a gap after
them. -/
theorem foldr_codes_range {l h : CodePoint} (hlh : l ≤ h)
    (hgap : ∀ q ∈ rs.head?, h.toNat + 1 < q.low.toNat) :
    (range l h).codes.foldr extendRuns rs = ofBounds l h :: rs := by
  obtain ⟨n, hn⟩ := Nat.exists_eq_add_of_le (UInt32.le_iff_toNat_le.mp hlh)
  induction n generalizing l with
  | zero =>
    obtain rfl : h = l := UInt32.toNat_inj.mp hn
    rw [codes_range_self, List.foldr_cons, List.foldr_nil, extendRuns_of_gap hgap, ofBounds,
      if_pos rfl]
  | succ n ih =>
    have hlt : l < h := UInt32.lt_iff_toNat_lt.mpr (by omega)
    have hnext := CodePoint.toNat_add_one hlt
    have hle : l + 1 ≤ h := UInt32.le_iff_toNat_le.mpr (by omega)
    rw [codes_range_of_lt hlt, List.foldr_cons, ih hle (by omega), extendRuns, low_ofBounds,
      if_pos hnext.symm, high_ofBounds]

theorem foldr_codes {r : CodeRange} (hr : r.Proper)
    (hgap : ∀ q ∈ rs.head?, r.high.toNat + 1 < q.low.toNat) :
    r.codes.foldr extendRuns rs = r :: rs := by
  have h := foldr_codes_range hr.low_le_high hgap
  rwa [hr.ofBounds_eq] at h

/-- The runs of what separated ranges hold are these ranges. -/
theorem Separated.foldr_flatMap_codes (hs : Separated rs) :
    (rs.flatMap codes).foldr extendRuns [] = rs := by
  induction rs with
  | nil => rfl
  | cons r rs ih =>
    obtain ⟨hr, hgap, hs⟩ := separated_cons.mp hs
    rw [List.flatMap_cons, List.foldr_append, ih hs, foldr_codes hr hgap]

/-! ## The decomposition of a set -/

/-- Separated ranges list the members of the set that they hold. -/
theorem Separated.flatMap_codes_eq (hs : Separated rs) (hm : ∀ c, (∃ r ∈ rs, c ∈ r) ↔ c ∈ s) :
    rs.flatMap codes = s.toList := by
  refine hs.pairwise_flatMap_codes.eq_of_mem_iff (pairwise_toList s) fun c ↦ ?_
  simp only [List.mem_flatMap, mem_codes, mem_toList, hm]

theorem Separated.eq_runs (hs : Separated rs) (hm : ∀ c, (∃ r ∈ rs, c ∈ r) ↔ c ∈ s) :
    rs = s.runs := by
  rw [runs_eq_foldr, ← hs.flatMap_codes_eq hm, hs.foldr_flatMap_codes]

/-- The sizes of the runs add up to the size of the set. -/
theorem WellFormed.sum_size_runs (hs : s.WellFormed) :
    (s.runs.map CodeRange.size).sum = s.size := by
  have h := congrArg List.length ((separated_runs s).flatMap_codes_eq fun c ↦ exists_mem_runs)
  rwa [length_flatMap_codes, hs.length_toList] at h

/-- The runs of a set are its only decomposition.  Any ranges are the runs of a set just if each of
them is a point or has its lower bound below its upper one, neighbours ascend with a gap between
them, and they hold the members of the set and nothing else; and the sizes of the runs add up to the
size of the set.  So separated ranges in the domain that are inserted into the empty set come back
as its runs. -/
theorem runs_eq_iff_separated :
    (∀ (s : CodeSet) (rs : List CodeRange),
      s.runs = rs ↔ Separated rs ∧ ∀ c, (∃ r ∈ rs, c ∈ r) ↔ s.contains c = true) ∧
    (∀ s : CodeSet, s.Reachable → (s.runs.map CodeRange.size).sum = s.size) ∧
    ∀ rs : List CodeRange, Separated rs → (∀ r ∈ rs, r.high ≤ CodePoint.last) →
      (rs.foldl insertRange empty).runs = rs := by
  refine ⟨?_, ?_, ?_⟩
  · intro s rs
    constructor
    · rintro rfl
      exact ⟨separated_runs s, fun c ↦ exists_mem_runs⟩
    · rintro ⟨hrs, hm⟩
      exact (hrs.eq_runs hm).symm
  · rintro s ⟨_, hs⟩
    exact hs.wellFormed.sum_size_runs
  · intro rs hrs hl
    refine (hrs.eq_runs fun c ↦ ?_).symm
    rw [← ofRanges, mem_ofRanges, iff_self_and]
    rintro ⟨r, hr, hc⟩
    exact UInt32.le_trans hc.2 (hl r hr)

/-- Runs at both ends of the domain and a point between them, from code points in no order. -/
theorem runs_eq_iff_separated_samples :
    let s := ofList [0x45, 2, 0x3134A, 0, 0xFFFFFFFF, 1, 0x31349]
    let rs : List CodeRange := [.range 0 2, .point 0x45, .range 0x31349 0x3134A]
    s.runs = rs ∧ (s.runs.map CodeRange.size).sum = s.size ∧
    (rs.foldl insertRange empty).runs = rs := by
  intro s rs
  obtain ⟨hiff, hsize, hback⟩ := runs_eq_iff_separated
  have hs : s.Reachable := ⟨_, .ofList _⟩
  have hrs : Separated rs := by decide
  refine ⟨(hiff s rs).mpr ⟨hrs, fun c ↦ ?_⟩, hsize s hs, hback rs hrs (by decide)⟩
  rw [← CodeSet.mem_def, mem_ofList]
  simp only [rs, List.mem_cons, List.not_mem_nil, or_false, exists_eq_or_imp, exists_eq_left,
    CodeRange.mem_def, low_range, high_range, low_point, high_point, ← UInt32.toNat_inj,
    UInt32.le_iff_toNat_le, CodePoint.toNat_last, UInt32.reduceToNat]
  omega

/-! ## The fewest ranges -/

/-- Separated ranges begin one after another. -/
theorem Separated.pairwise_low (hs : Separated rs) : (rs.map low).Pairwise (· < ·) := by
  refine List.pairwise_map.mpr (hs.pairwise.imp_of_mem fun {r q} hr _ hrq ↦ ?_)
  have hle := UInt32.le_iff_toNat_le.mp (hs.proper r hr).low_le_high
  rw [UInt32.lt_iff_toNat_lt]
  omega

/-- Any of the ranges begins no later than another one, or after a gap behind it. -/
theorem Separated.low_le_or_gap (hs : Separated rs) {r q : CodeRange} (hr : r ∈ rs) (hq : q ∈ rs) :
    r.low.toNat ≤ q.low.toNat ∨ q.high.toNat + 1 < r.low.toNat := by
  have hlow := List.pairwise_map.mp hs.pairwise_low
  refine List.Pairwise.forall_of_forall_of_flip
    (R := fun r q ↦ r.low.toNat ≤ q.low.toNat ∨ q.high.toNat + 1 < r.low.toNat) ?_ ?_ ?_ hr hq
  · exact fun r _ ↦ .inl (Nat.le_refl _)
  · exact hlow.imp fun h ↦ .inl (UInt32.lt_iff_toNat_lt.mp h).le
  · exact hs.pairwise.imp .inr

/-- The code point before a run is no member. -/
theorem notMem_of_add_one_eq_low {r : CodeRange} (hr : r ∈ s.runs) {c : CodePoint}
    (hc : c.toNat + 1 = r.low.toNat) : c ∉ s := by
  intro hm
  obtain ⟨q, hq, hcq⟩ := exists_mem_runs.mpr hm
  rw [mem_iff_toNat] at hcq
  have := (separated_runs s).low_le_or_gap hr hq
  omega

/-- In any ranges that cover a set, one begins where a run of the set does: the code point before
the run is no member, so that a range with the first code point of the run cannot begin earlier. -/
theorem low_mem_of_mem_runs {r : CodeRange} (hr : r ∈ (ofRanges rs).runs) : r.low ∈ rs.map low := by
  have hlow : r.low ∈ ofRanges rs :=
    exists_mem_runs.mp ⟨r, hr, UInt32.le_refl _, low_le_high_of_mem_runs hr⟩
  obtain ⟨⟨q, hq, hle, hlh⟩, hlast⟩ := mem_ofRanges.mp hlow
  refine List.mem_map.mpr ⟨q, hq, UInt32.le_antisymm hle ?_⟩
  by_contra hlt
  -- Otherwise the range holds the code point before the run as well.
  have hlt := UInt32.not_le.mp hlt
  have hc := CodePoint.toNat_sub_one_add_one hlt
  apply notMem_of_add_one_eq_low hr hc
  rw [UInt32.le_iff_toNat_le] at hlh hlast
  rw [UInt32.lt_iff_toNat_lt] at hlt
  rw [mem_ofRanges, UInt32.le_iff_toNat_le]
  exact ⟨⟨q, hq, mem_iff_toNat.mpr (by omega)⟩, by omega⟩

/-- No fewer ranges cover a set than it has runs. -/
theorem length_runs_ofRanges_le (rs : List CodeRange) : (ofRanges rs).runs.length ≤ rs.length := by
  have hsub : (ofRanges rs).runs.map low ⊆ rs.map low := by
    intro c hc
    obtain ⟨r, hr, rfl⟩ := List.mem_map.mp hc
    exact low_mem_of_mem_runs hr
  have hnodup := (separated_runs (ofRanges rs)).pairwise_low.nodup
  simpa using (hnodup.subperm hsub).length_le

end CodeSet

end PropertyTable
