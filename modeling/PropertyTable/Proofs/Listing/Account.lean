import PropertyTable.Proofs.Listing.FirstFault

/-!
# What reading tells the journal

Reading accounts for every line.  The journal has one event for each line before the first one
without a meaning, with the line's number and, if the line names a range, the running total of the
sizes of ranges.  Two more events follow if all lines have a meaning, and none if one has not.
-/

namespace PropertyTable

theorem Level.rank_le_rank_trace (l : Level) : l.rank ≤ trace.rank := by cases l <;> decide

namespace Listing

/-! ## Mentions -/

/-- How many code points lines name, each of them counted as often as it is named. -/
def mentions (lines : List (List Char)) : Nat := ((rangesOf lines).map CodeRange.size).sum

@[simp] theorem mentions_nil : mentions [] = 0 := rfl

theorem mentions_cons {line : List Char} {entry : Option CodeRange} (h : readEntry line = .ok entry)
    (rest : List (List Char)) :
    mentions (line :: rest) = (entry.toList.map CodeRange.size).sum + mentions rest := by
  cases entry with
  | none => simp [mentions, rangesOf_cons_none h]
  | some r => simp [mentions, rangesOf_cons_some h]

/-! ## Events of lines -/

/-- The lines before the first one without a meaning. -/
def goodLines (lines : List (List Char)) : List (List Char) :=
  lines.takeWhile fun line ↦ (readEntry line).isOk

theorem isOk_readEntry_iff {line : List Char} :
    (readEntry line).isOk = true ↔ ∃ entry, readEntry line = .ok entry := by
  cases readEntry line with
  | error fault => simp [Except.isOk, Except.toBool]
  | ok entry => simp [Except.isOk, Except.toBool]

theorem goodLines_cons_error {line : List Char} {fault : EntryFault}
    (h : readEntry line = .error fault) (rest : List (List Char)) : goodLines (line :: rest) = [] :=
  List.takeWhile_cons_of_neg (mt isOk_readEntry_iff.mp (by simp [h]))

theorem goodLines_cons_ok {line : List Char} {entry : Option CodeRange}
    (h : readEntry line = .ok entry) (rest : List (List Char)) :
    goodLines (line :: rest) = line :: goodLines rest :=
  List.takeWhile_cons_of_pos (isOk_readEntry_iff.mpr ⟨entry, h⟩)

/-- All lines have a meaning if none comes after the good ones. -/
theorem goodLines_eq_self_iff {lines : List (List Char)} :
    goodLines lines = lines ↔ Readable lines := by
  rw [goodLines, List.takeWhile_eq_self_iff]
  exact forall₂_congr fun _ _ ↦ isOk_readEntry_iff

/-- A line before the first one without a meaning has a meaning. -/
theorem exists_entry_of_goodLines {lines : List (List Char)} {i : Nat} {line : List Char}
    (h : (goodLines lines)[i]? = some line) : ∃ entry, readEntry line = .ok entry :=
  isOk_readEntry_iff.mp (List.mem_takeWhile_imp (List.mem_of_getElem? h) :)

/-- The event of a line with a meaning, with its number and the total of the lines up to it. -/
def eventOf (number total : Nat) : Option CodeRange → Event
  | none => .skipped number
  | some r => .indexed number r total

/-- One line: its event, with the total that it leaves, or nothing. -/
theorem readLine_events (p : Progress) (number : Nat) (line : List Char) :
    (readLine p number line).events = match readEntry line with
      | .error _ => []
      | .ok entry => [eventOf number (p.extend entry.toList).total entry] := by
  unfold readLine
  cases readEntry line with
  | error fault => rfl
  | ok entry => cases entry <;> rfl

/-- Lines are told one after another, up to the first one without a meaning. -/
theorem readLines_events (p : Progress) (number : Nat) (lines : List (List Char)) :
    (readLines p number lines).events = (goodLines lines).mapIdx fun i line ↦
      eventOf (number + i) (p.total + mentions (lines.take (i + 1)))
        (readEntry line).toOption.join := by
  induction lines generalizing p number with
  | nil => rfl
  | cons line rest ih =>
    rw [readLines, Logged.events_bind, readLine_events, readLine_outcome]
    cases h : readEntry line with
    | error fault =>
      rw [goodLines_cons_error h]
      rfl
    | ok entry =>
      have htotal (ls : List (List Char)) :
          p.total + mentions (line :: ls) = (p.extend entry.toList).total + mentions ls := by
        rw [mentions_cons h, Progress.extend, Nat.add_assoc]
      simp only [goodLines_cons_ok h, List.mapIdx_cons, List.take_succ_cons, htotal, List.take_zero,
        mentions_nil, ih, h]
      simp [Except.toOption, Nat.add_assoc, Nat.add_comm 1]

/-- Reading ends with the total and the number of members, if all lines have a meaning. -/
theorem read_events (text : String) :
    (read text).events
      = (readLines .start 1 (linesOf text)).events ++ match (read text).outcome with
      | .ok s => [.listingRead (mentions (linesOf text)), .membersCounted s.size]
      | .error _ => [] := by
  rw [read_outcome, read, Logged.events_bind]
  cases h : (readLines .start 1 (linesOf text)).outcome with
  | error failure => rfl
  | ok q =>
    obtain ⟨-, rfl⟩ := readLines_outcome_eq_ok_iff.mp h
    have htotal : (Progress.start.extend (rangesOf (linesOf text))).total
        = mentions (linesOf text) :=
      Nat.zero_add _
    rw [← htotal]
    rfl

/-! ## The whole journal -/

/-- The events that the most talkative level shows, each with its own level. -/
def traced (events : List Event) : List (Level × Event) :=
  (events.filter fun e ↦ e.level.rank ≤ Level.trace.rank).map fun e ↦ (e.level, e)

/-- They are what the lines of the journal tell. -/
theorem lines_trace (scope : Option Property) (events : List Event) :
    Journal.lines .trace scope events = (traced events).flatMap fun (level, e) ↦
      Journal.tell level (Journal.scopeText scope ++ e.text) := by
  rw [Journal.lines, traced, List.flatMap_map]

/-- The most talkative level shows everything. -/
theorem traced_eq_map (events : List Event) : traced events = events.map fun e ↦ (e.level, e) := by
  rw [traced, List.filter_eq_self.mpr]
  exact fun e _ ↦ decide_eq_true e.level.rank_le_rank_trace

/-- No line is passed over in silence.  At the most talkative level, reading tells exactly one event
for each line before the first one without a meaning, in order: that the line was skipped, if it has
no entry, or which range it names, with the sum of the sizes of all ranges up to it; and the event
has the number of the line.  The total and the number of members follow if the listing is read,
which is if all lines have a meaning; otherwise nothing follows. -/
theorem read_accounts_for_lines (text : String) :
    let lines := linesOf text
    ∃ log : List (Level × Event),
      (traced (read text).events = log ++ match (read text).outcome with
        | .ok s => [(.debug, .listingRead (mentions lines)), (.info, .membersCounted s.size)]
        | .error _ => []) ∧
      log.length = (goodLines lines).length ∧
      (∀ (i : Nat) line, (goodLines lines)[i]? = some line →
        readEntry line = .ok none ∧ log[i]? = some (.debug, .skipped (i + 1)) ∨
        ∃ r, readEntry line = .ok (some r) ∧
          log[i]? = some (.trace, .indexed (i + 1) r (mentions (lines.take (i + 1))))) ∧
      ((∃ s, (read text).outcome = .ok s) ↔ goodLines lines = lines) := by
  intro lines
  refine ⟨traced (readLines .start 1 lines).events, ?_, ?_, ?_, ?_⟩
  · rw [traced_eq_map, traced_eq_map, read_events, List.map_append]
    cases (read text).outcome <;> rfl
  · rw [traced_eq_map, List.length_map, readLines_events, List.length_mapIdx]
  · intro i line hline
    have hlog (entry : Option CodeRange) (he : readEntry line = .ok entry) :
        (traced (readLines .start 1 lines).events)[i]?
          = some ((eventOf (i + 1) (mentions (lines.take (i + 1))) entry).level,
              eventOf (i + 1) (mentions (lines.take (i + 1))) entry) := by
      rw [traced_eq_map, readLines_events, List.getElem?_map, List.getElem?_mapIdx, hline,
        Option.map_some, Option.map_some, he, Nat.add_comm 1, Progress.start, Nat.zero_add]
      rfl
    obtain ⟨entry | r, he⟩ := exists_entry_of_goodLines hline
    · exact .inl ⟨he, hlog none he⟩
    · exact .inr ⟨r, he, hlog (some r) he⟩
  · rw [goodLines_eq_self_iff]
    constructor
    · rintro ⟨s, hs⟩
      exact (read_outcome_eq_ok_iff.mp hs).1
    · exact exists_read_ok

/-- A range, a comment and a point that repeats a code point, before a line without a meaning. -/
theorem read_accounts_for_lines_samples :
    (goodLines (linesOf "\uFEFF41..43\r\n# A\n42;\nzz\n41"))[2]? = some "42;".toList ∧
    ∃ log : List (Level × Event),
      traced (read "\uFEFF41..43\r\n# A\n42;\nzz\n41").events = log ∧ log.length = 3 ∧
      log[0]? = some (.trace, .indexed 1 (.range 0x41 0x43) 3) ∧
      log[1]? = some (.debug, .skipped 2) ∧
      log[2]? = some (.trace, .indexed 3 (.point 0x42) 4) := by
  obtain ⟨text, ht⟩ : ∃ text, text = "\uFEFF41..43\r\n# A\n42;\nzz\n41" := ⟨_, rfl⟩
  have hl :
      linesOf text = ["41..43".toList, "# A".toList, "42;".toList, "zz".toList, "41".toList] := by
    rw [ht]
    decide
  have hgood : goodLines (linesOf text) = ["41..43".toList, "# A".toList, "42;".toList] := by
    rw [hl]
    decide
  have hrange : readEntry "41..43".toList = .ok (some (.range 0x41 0x43)) := by decide
  have hcomment : readEntry "# A".toList = .ok none := by decide
  have hpoint : readEntry "42;".toList = .ok (some (.point 0x42)) := by decide
  obtain ⟨log, hlog, hlength, hline, hok⟩ := read_accounts_for_lines text
  rw [← ht, hgood]
  rw [hgood] at hlength hline hok
  refine ⟨rfl, log, ?_, hlength, ?_, ?_, ?_⟩
  · cases h : (read text).outcome with
    | error failure => rw [hlog, h, List.append_nil]
    | ok s => exact absurd (hok.mp ⟨s, h⟩) (by rw [hl]; decide)
  · obtain ⟨he, -⟩ | ⟨r, hr, htold⟩ := hline 0 _ rfl
    · cases hrange.symm.trans he
    · obtain rfl := Option.some.inj (Except.ok.inj (hrange.symm.trans hr))
      rw [htold, hl]
      decide
  · obtain ⟨-, htold⟩ | ⟨r, hr, -⟩ := hline 1 _ rfl
    · exact htold
    · cases hcomment.symm.trans hr
  · obtain ⟨he, -⟩ | ⟨r, hr, htold⟩ := hline 2 _ rfl
    · cases hpoint.symm.trans he
    · obtain rfl := Option.some.inj (Except.ok.inj (hpoint.symm.trans hr))
      rw [htold, hl]
      decide

end Listing

end PropertyTable
