import PropertyTable.Proofs.CodeSet.Refinement
import PropertyTable.Proofs.CodeSet.Runs
import PropertyTable.Proofs.Text.Lines

/-!
# Reading what was written

A written listing has a line for each run of its set, and every line is read as its run, whatever
the label holds.  So reading undoes writing.
-/

namespace PropertyTable.Listing

open Text

/-- The text of a range, without white space. -/
def spelling : CodeRange → List Char
  | .point c => c.toHex.toList
  | .range l h => l.toHex.toList ++ ['.', '.'] ++ h.toHex.toList

/-- The blanks between a range and the separator. -/
def gap : CodeRange → Nat
  | .point _ => 10
  | .range _ _ => 4

/-- What stands on a written line before its separator. -/
def column (r : CodeRange) : List Char := spelling r ++ List.replicate (gap r) ' '

theorem toList_writeEntry (label : String) (r : CodeRange) :
    (writeEntry label r).toList = column r ++ ';' :: ' ' :: label.toList ++ ['\n'] := by
  have hp : "          ; ".toList = List.replicate 10 ' ' ++ [';', ' '] := by decide
  have hr : "    ; ".toList = List.replicate 4 ' ' ++ [';', ' '] := by decide
  have hm : rangeMarker.toList = ['.', '.'] := by decide
  have hn : "\n".toList = ['\n'] := by decide
  cases r <;> simp only [writeEntry, column, spelling, gap, String.toList_append, hp, hr, hm, hn,
    List.append_assoc, List.cons_append, List.nil_append]

/-! ## Columns -/

theorem numeral_toHex (c : CodePoint) : Hex.Numeral c.toHex.toList c.toNat := by
  rw [CodePoint.toHex, String.toList_ofList]
  exact Hex.numeral_write 4 c.toNat

/-- The text of a range spells it. -/
theorem spells_spelling {r : CodeRange} (hr : r.low ≤ r.high) (hl : r.high ≤ CodePoint.last) :
    Spells (spelling r) r := by
  cases r with
  | point c => exact ⟨numeral_toHex c, hl⟩
  | range l h => exact ⟨_, _, rfl, numeral_toHex l, numeral_toHex h, hr, hl⟩

theorem mem_of_mem_spelling {r : CodeRange} {c : Char} (h : c ∈ spelling r) :
    c ∈ '.' :: Hex.digits := by
  have hd : ∀ d : CodePoint, c ∈ d.toHex.toList → c ∈ '.' :: Hex.digits := fun d hc ↦
    List.mem_cons_of_mem _ ((numeral_toHex d).mem_digits hc)
  cases r with
  | point d => exact hd d h
  | range l u =>
    rcases List.mem_append.mp h with h | h
    · rcases List.mem_append.mp h with h | h
      · exact hd l h
      · obtain rfl : c = '.' := by simpa using h
        exact List.mem_cons_self
    · exact hd u h

/-- Without its white space, a column is the text of its range. -/
theorem dropBlanks_column (r : CodeRange) : dropBlanks (column r) = spelling r := by
  have hd : ∀ c ∈ '.' :: Hex.digits, (!isBlank c) = true := List.all_eq_true.mp (by decide)
  have hs : dropBlanks (spelling r) = spelling r :=
    List.filter_eq_self.mpr fun c hc ↦ hd c (mem_of_mem_spelling hc)
  have hb : dropBlanks (List.replicate (gap r) ' ') = [] := List.filter_replicate_of_neg (by decide)
  rw [column, dropBlanks_append, hs, hb, List.append_nil]

/-- No character of a column ends it, or its line. -/
theorem ne_of_mem_column {r : CodeRange} {c : Char} (h : c ∈ column r) :
    c ≠ ';' ∧ c ≠ '#' ∧ c ≠ '\n' ∧ c ≠ '\uFEFF' := by
  have hc : c ∈ ' ' :: '.' :: Hex.digits := by
    rcases List.mem_append.mp h with h | h
    · exact List.mem_cons_of_mem _ (mem_of_mem_spelling h)
    · rw [List.eq_of_mem_replicate h]
      exact List.mem_cons_self
  exact ⟨ne_of_mem_of_not_mem hc (by decide), ne_of_mem_of_not_mem hc (by decide),
    ne_of_mem_of_not_mem hc (by decide), ne_of_mem_of_not_mem hc (by decide)⟩

theorem exists_column_eq_cons (r : CodeRange) : ∃ c cs, column r = c :: cs := by
  refine List.exists_cons_of_ne_nil (List.append_ne_nil_of_right_ne_nil _ ?_)
  cases r <;> exact List.cons_ne_nil _ _

/-! ## Lines -/

/-- A line with a column before its separator is read as the range of the column. -/
theorem readEntry_column {r : CodeRange} (hr : r.low ≤ r.high) (hl : r.high ≤ CodePoint.last)
    (rest : List Char) : readEntry (column r ++ ';' :: rest) = .ok (some r) := by
  have hf : field (column r ++ ';' :: rest) = dropBlanks (column r) := by
    rw [field_eq, List.takeWhile_append_of_pos, List.takeWhile_cons_of_neg (by decide),
      List.append_nil]
    intro c hc
    obtain ⟨hs, hm, -⟩ := ne_of_mem_column hc
    simp [hs, hm]
  rw [readEntry_eq_some_iff, hf, dropBlanks_column]
  exact spells_spelling hr hl

/-- What a written line holds, without its end.  A carriage return that ends the label belongs to
it. -/
theorem lines_writeEntry {label : String} (h : '\n' ∉ label.toList) (rs : List CodeRange) :
    lines (rs.flatMap fun r ↦ (writeEntry label r).toList)
      = rs.map fun r ↦ column r ++ ';' :: chomp (' ' :: label.toList) := by
  induction rs with
  | nil => rfl
  | cons r rs ih =>
    have hn : '\n' ∉ column r ++ ';' :: ' ' :: label.toList := by
      rw [List.mem_append, not_or]
      refine ⟨fun hc ↦ (ne_of_mem_column hc).2.2.1 rfl, ?_⟩
      simpa using h
    rw [List.flatMap_cons, toList_writeEntry, List.append_assoc, List.singleton_append,
      lines_append_newline hn, ih, chomp_append_cons (by decide), List.map_cons]

theorem toList_write (label : String) (s : CodeSet) :
    (write label s).toList = s.runs.flatMap fun r ↦ (writeEntry label r).toList := by
  rw [write, String.toList_join, List.flatMap_map]

/-- A written listing does not begin with a byte order mark. -/
theorem linesOf_write (label : String) (s : CodeSet) :
    linesOf (write label s) = lines (write label s).toList := by
  have hm : (write label s).toList.head? ≠ some '\uFEFF' := by
    rw [toList_write]
    cases s.runs with
    | nil => simp
    | cons r rs =>
      obtain ⟨c, cs, hc⟩ := exists_column_eq_cons r
      obtain ⟨-, -, -, hm⟩ := ne_of_mem_column (hc ▸ List.mem_cons_self : c ∈ column r)
      simp [toList_writeEntry, hc, hm]
  rw [linesOf, dropMark_eq_self hm]

/-- The lines of a written listing are read as the runs of its set, one by one and in order. -/
theorem map_readEntry_lines_write {label : String} (h : '\n' ∉ label.toList) (s : CodeSet) :
    (lines (write label s).toList).map readEntry = s.runs.map fun r ↦ .ok (some r) := by
  rw [toList_write, lines_writeEntry h, List.map_map]
  exact List.map_congr_left fun r hr ↦
    readEntry_column (CodeSet.low_le_high_of_mem_runs hr) (CodeSet.high_le_last_of_mem_runs hr) _

/-- Lines that are read as ranges are readable, and name these ranges. -/
theorem readable_and_rangesOf_eq {ls : List (List Char)} {rs : List CodeRange}
    (h : ls.map readEntry = rs.map fun r ↦ .ok (some r)) : Readable ls ∧ rangesOf ls = rs := by
  constructor
  · intro line hl
    have hm := List.mem_map_of_mem (f := readEntry) hl
    rw [h] at hm
    obtain ⟨r, -, hr⟩ := List.mem_map.mp hm
    exact ⟨some r, hr.symm⟩
  · have hf : rangesOf ls = (ls.map readEntry).filterMap fun entry ↦ entry.toOption.join := by
      rw [List.filterMap_map]
      rfl
    rw [hf, h, List.filterMap_map]
    exact List.filterMap_some

/-- A written listing is read as its set. -/
theorem read_write {label : String} (h : '\n' ∉ label.toList) {s : CodeSet} (hs : s.WellFormed) :
    (read (write label s)).outcome = .ok s := by
  obtain ⟨hr, hn⟩ := readable_and_rangesOf_eq (map_readEntry_lines_write h s)
  rw [read_outcome_eq_ok_iff, linesOf_write, hn, hs.ofRanges_runs]
  exact ⟨hr, rfl⟩

/-- Reading undoes writing.  A listing that was written for a set, with any label in one line, is
read as the very set, its stored size included; it has one line for each run of the set, and each
line is read as its run, a point as a point and a range as a range. -/
theorem read_write_of_reachable {label : String} (h : '\n' ∉ label.toList) {s : CodeSet}
    (hs : s.Reachable) :
    (read (write label s)).outcome = .ok s ∧
      (lines (write label s).toList).length = s.runs.length ∧
      (lines (write label s).toList).map readEntry = s.runs.map fun r ↦ .ok (some r) := by
  obtain ⟨_, hs⟩ := hs
  have hm := map_readEntry_lines_write h s
  refine ⟨read_write h hs.wellFormed, ?_, hm⟩
  simpa using congrArg List.length hm

/-- A label with separators, comments, range markers and a carriage return at its end, and a set
with points and ranges up to the last code point. -/
theorem read_write_busy_label :
    let s := CodeSet.ofList [0x41, 0x42, 0x61, 0x10400, 0x31349, 0x3134A]
    (read (write "a; # 41..5A\r" s)).outcome = .ok s ∧
      (lines (write "a; # 41..5A\r" s).toList).length = s.runs.length ∧
      (lines (write "a; # 41..5A\r" s).toList).map readEntry = s.runs.map fun r ↦ .ok (some r) :=
  read_write_of_reachable (by decide) ⟨_, .ofList _⟩

end PropertyTable.Listing
