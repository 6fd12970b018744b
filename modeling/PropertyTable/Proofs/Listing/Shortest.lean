import Mathlib.Order.Bounds.Defs
import PropertyTable.Proofs.CodeSet.Decomposition
import PropertyTable.Proofs.Listing.RoundTrip

/-!
# The shortest listing

A listing names at most one range on a line, and no fewer ranges cover a set than it has runs.  So
the listing that is written for a set, with a line for each run, has the fewest lines of all
listings that are read as the set.
-/

namespace PropertyTable.Listing

open Text

/-! ## Lines of a written listing -/

theorem closed_writeEntry (label : String) (r : CodeRange) :
    Closed (writeEntry label r).toList := by
  rw [toList_writeEntry]
  exact closed_append_newline.mpr (.inl rfl)

theorem count_newline_writeEntry (label : String) (r : CodeRange) :
    (writeEntry label r).toList.count '\n' = label.toList.count '\n' + 1 := by
  have hc : (column r).count '\n' = 0 :=
    List.count_eq_zero_of_not_mem fun h ↦ (ne_of_mem_column h).2.2.1 rfl
  rw [toList_writeEntry, List.count_append, List.count_append, hc]
  simp

/-- Each range has a line, and one more for every newline of the label. -/
theorem length_lines_writeEntry (label : String) (rs : List CodeRange) :
    (lines (rs.flatMap fun r ↦ (writeEntry label r).toList)).length
      = rs.length * (label.toList.count '\n' + 1) := by
  induction rs with
  | nil => simp
  | cons r rs ih =>
    have hr := closed_writeEntry label r
    rw [List.flatMap_cons, lines_append_of_closed hr, List.length_append, length_lines_of_closed hr,
      count_newline_writeEntry, ih, List.length_cons, Nat.succ_mul, Nat.add_comm]

theorem length_lines_write (label : String) (s : CodeSet) :
    (lines (write label s).toList).length = s.runs.length * (label.toList.count '\n' + 1) := by
  rw [toList_write, length_lines_writeEntry]

/-! ## Other listings -/

/-- No listing that is read as a set has fewer lines than the set has runs. -/
theorem length_runs_le_of_read {text : String} {s : CodeSet} (h : (read text).outcome = .ok s) :
    s.runs.length ≤ (linesOf text).length := by
  obtain ⟨-, rfl⟩ := read_outcome_eq_ok_iff.mp h
  calc (CodeSet.ofRanges (rangesOf (linesOf text))).runs.length
    _ ≤ (rangesOf (linesOf text)).length := CodeSet.length_runs_ofRanges_le _
    _ ≤ (linesOf text).length := List.length_filterMap_le ..

/-- The runs are the shortest description of a set.  They give the set when they are inserted into
the empty one, and no fewer ranges do, in whatever order they come, overlapping, inverted or with a
part above the domain.  So the listing that is written for the set, with a label in one line, has
the fewest lines of all listings that are read as the set; and whatever the label, it has the fewest
lines of all listings with the entries of ranges that give the set. -/
theorem length_runs_isLeast {s : CodeSet} (hs : s.Reachable) :
    IsLeast {n | ∃ rs : List CodeRange, rs.foldl CodeSet.insertRange .empty = s ∧ rs.length = n}
      s.runs.length ∧
    (∀ label : String, '\n' ∉ label.toList →
      IsLeast {n | ∃ text, (read text).outcome = .ok s ∧ (linesOf text).length = n}
        (lines (write label s).toList).length) ∧
    ∀ label : String,
      IsLeast {n | ∃ rs : List CodeRange, rs.foldl CodeSet.insertRange .empty = s ∧
          (lines (String.join (rs.map (writeEntry label))).toList).length = n}
        (lines (write label s).toList).length := by
  obtain ⟨_, hs⟩ := hs
  have hruns : s.runs.foldl CodeSet.insertRange .empty = s := hs.wellFormed.ofRanges_runs
  have hle : ∀ rs : List CodeRange, rs.foldl CodeSet.insertRange .empty = s →
      s.runs.length ≤ rs.length := by
    rintro rs rfl
    exact CodeSet.length_runs_ofRanges_le rs
  refine ⟨⟨⟨s.runs, hruns, rfl⟩, ?_⟩, ?_, ?_⟩
  · rintro n ⟨rs, hrs, rfl⟩
    exact hle rs hrs
  · intro label hl
    refine ⟨⟨write label s, read_write hl hs.wellFormed, by rw [linesOf_write]⟩, ?_⟩
    rintro n ⟨text, hr, rfl⟩
    rw [length_lines_write, List.count_eq_zero_of_not_mem hl, Nat.zero_add, Nat.mul_one]
    exact length_runs_le_of_read hr
  · intro label
    refine ⟨⟨s.runs, hruns, rfl⟩, ?_⟩
    rintro n ⟨rs, hrs, rfl⟩
    rw [length_lines_write, String.toList_join, List.flatMap_map, length_lines_writeEntry]
    exact Nat.mul_le_mul_right _ (hle rs hrs)

/-- A listing with overlapping entries in no order, and the same ranges beside an inverted one and
one above the domain. -/
theorem length_runs_isLeast_samples :
    let s := CodeSet.ofRanges [.point 0x43, .range 0x41 0x42, .point 0x42, .point 0x61]
    let rs : List CodeRange :=
      [.range 5 3, .range 0x31400 0xFFFFFFFF, .point 0x61, .range 0x41 0x43, .point 0x42]
    s.runs.length ≤ rs.length ∧
      (lines (write "L" s).toList).length ≤ (linesOf "43\n41..42 ; L\n42\n# none\n61").length ∧
      (lines (write "L" s).toList).length
        ≤ (lines (String.join (rs.map (writeEntry "L"))).toList).length := by
  intro s rs
  have hnamed : rangesOf (linesOf "43\n41..42 ; L\n42\n# none\n61")
      = [.point 0x43, .range 0x41 0x42, .point 0x42, .point 0x61] := by decide
  have hread : (read "43\n41..42 ; L\n42\n# none\n61").outcome = .ok s :=
    read_outcome_eq_ok_iff.mpr ⟨by decide, by rw [hnamed]⟩
  have hrs : rs.foldl CodeSet.insertRange .empty = s := by
    refine (CodeSet.WellFormed.ofRanges rs).ext (.ofRanges _) fun c ↦ ?_
    rw [CodeSet.mem_ofRanges, CodeSet.mem_ofRanges]
    simp only [rs, List.mem_cons, List.not_mem_nil, or_false, exists_eq_or_imp, exists_eq_left,
      CodeRange.mem_def, CodeRange.low_range, CodeRange.high_range, CodeRange.low_point,
      CodeRange.high_point, UInt32.le_iff_toNat_le, CodePoint.toNat_last, UInt32.reduceToNat]
    omega
  obtain ⟨⟨-, hleast⟩, htext, hranges⟩ := length_runs_isLeast ⟨_, .read hread⟩
  exact ⟨hleast ⟨rs, hrs, rfl⟩, (htext "L" (by decide)).2 ⟨_, hread, rfl⟩,
    (hranges "L").2 ⟨rs, hrs, rfl⟩⟩

end PropertyTable.Listing
