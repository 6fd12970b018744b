import Mathlib.Data.Set.Card
import PropertyTable.Proofs.Listing.Members

/-!
# The first fault of a listing

Reading stops at the first line that has no meaning, and its number and fault are what is reported.
With the members of a listing this says all about the outcome of reading: the union of the lines, or
the first bad one.
-/

namespace PropertyTable.Listing

/-- Reading lines fails at the first one without a meaning, which is counted from the number of the
first line. -/
theorem readLines_outcome_eq_error_iff {p : Progress} {number : Nat} {lines : List (List Char)}
    {failure : Failure} :
    (readLines p number lines).outcome = .error failure ↔
      ∃ before line after fault, lines = before ++ line :: after ∧ Readable before ∧
        readEntry line = .error fault ∧ failure = .malformed (number + before.length) fault := by
  induction lines generalizing p number with
  | nil => simp [readLines]
  | cons line rest ih =>
    rw [readLines, Logged.outcome_bind, readLine_outcome]
    cases h : readEntry line with
    | error fault =>
      constructor
      · intro hf
        exact ⟨[], line, rest, fault, rfl, List.forall_mem_nil _, h, (Except.error.inj hf).symm⟩
      · rintro ⟨before, bad, after, fault', hl, hb, hbad, rfl⟩
        -- The line itself is bad, so that no line comes before the first bad one.
        cases before with
        | nil =>
          obtain ⟨rfl, -⟩ := List.cons.inj hl
          obtain rfl := Except.error.inj (h.symm.trans hbad)
          rfl
        | cons first before =>
          obtain ⟨rfl, -⟩ := List.cons.inj hl
          obtain ⟨entry, he⟩ := hb line List.mem_cons_self
          rw [h] at he
          cases he
    | ok entry =>
      change (readLines (p.extend entry.toList) (number + 1) rest).outcome = _ ↔ _
      rw [ih]
      constructor
      · rintro ⟨before, bad, after, fault, rfl, hb, hbad, rfl⟩
        refine ⟨line :: before, bad, after, fault, rfl,
          readable_cons.mpr ⟨⟨entry, h⟩, hb⟩, hbad, ?_⟩
        rw [List.length_cons, Nat.add_assoc, Nat.add_comm 1]
      · rintro ⟨before, bad, after, fault, hl, hb, hbad, rfl⟩
        cases before with
        | nil =>
          obtain ⟨rfl, -⟩ := List.cons.inj hl
          rw [h] at hbad
          cases hbad
        | cons first before =>
          obtain ⟨rfl, rfl⟩ := List.cons.inj hl
          refine ⟨before, bad, after, fault, rfl, (readable_cons.mp hb).2, hbad, ?_⟩
          rw [List.length_cons, Nat.add_assoc, Nat.add_comm 1]

/-- Reading a listing fails where reading its lines does. -/
theorem read_outcome_eq_error_iff {text : String} {failure : Failure} :
    (read text).outcome = .error failure ↔
      (readLines .start 1 (linesOf text)).outcome = .error failure := by
  rw [read_outcome]
  cases (readLines .start 1 (linesOf text)).outcome <;> simp [Except.map]

/-- The size of a listing's set is the number of code points that its lines name. -/
theorem size_eq_ncard_named {text : String} {s : CodeSet} (h : (read text).outcome = .ok s) :
    s.size = (named (linesOf text)).ncard := by
  have hn : named (linesOf text) = s.toList.toFinset := by
    ext c
    rw [← mem_iff_named h, List.coe_toFinset, Set.mem_ofPred_eq, CodeSet.mem_toList]
  rw [hn, Set.ncard_coe_finset, List.toFinset_card_of_nodup s.nodup_toList,
    (wellFormed_of_read h).length_toList]

/-- The range of a line holds its lower bound. -/
theorem low_le_high_of_readEntry {line : List Char} {r : CodeRange}
    (hr : readEntry line = .ok (some r)) : r.low ≤ r.high := by
  have hr := readEntry_eq_some_iff.mp hr
  cases r with
  | point c => exact UInt32.le_refl c
  | range l h =>
    obtain ⟨_, _, -, -, -, hl, -⟩ := hr
    exact hl

/-- Nothing is named if all lines are blank or comments. -/
theorem isEmpty_iff_void {text : String} {s : CodeSet} (h : (read text).outcome = .ok s) :
    s.isEmpty = true ↔ ∀ line ∈ linesOf text, Void line := by
  rw [(wellFormed_of_read h).isEmpty_iff]
  constructor
  · intro he line hl
    obtain ⟨entry, hr⟩ := (read_outcome_eq_ok_iff.mp h).1 line hl
    rw [← readEntry_eq_none_iff_void, hr]
    cases entry with
    | none => rfl
    | some r =>
      have hm : r.low ∈ s :=
        (mem_iff_named h).mpr ⟨line, hl, r, hr, UInt32.le_refl _, low_le_high_of_readEntry hr⟩
      exact absurd hm (he r.low)
  · intro hv c hc
    obtain ⟨line, hl, r, hr, -⟩ := (mem_iff_named h).mp hc
    rw [readEntry_eq_none_iff_void.mpr (hv line hl)] at hr
    cases hr

/-- Reading gives the union of the lines or the first bad line.  A listing is read just if every
line has a meaning; its set then has the code points that the lines name, its size counts each of
them once, and it is empty just if all lines are blank or comments.  A fault is reported of a line
just if the line has it and every line before has a meaning. -/
theorem read_union_or_first_fault (text : String) :
    ((∃ s, (read text).outcome = .ok s) ↔
      ∀ line ∈ linesOf text, ∃ entry, readEntry line = .ok entry) ∧
    (∀ s, (read text).outcome = .ok s →
      (∀ c, s.contains c = true ↔ c ∈ named (linesOf text)) ∧
      s.size = (named (linesOf text)).ncard ∧
      (s.isEmpty = true ↔ ∀ line ∈ linesOf text, Void line)) ∧
    (∀ number fault, (read text).outcome = .error (.malformed number fault) ↔
      ∃ before line after, linesOf text = before ++ line :: after ∧ number = before.length + 1 ∧
        readEntry line = .error fault ∧ ∀ good ∈ before, ∃ entry, readEntry good = .ok entry) := by
  refine ⟨?_, ?_, ?_⟩
  · constructor
    · rintro ⟨s, hs⟩
      exact (read_outcome_eq_ok_iff.mp hs).1
    · intro hl
      exact ⟨_, read_outcome_eq_ok_iff.mpr ⟨hl, rfl⟩⟩
  · intro s hs
    exact ⟨fun c ↦ mem_iff_named hs, size_eq_ncard_named hs, isEmpty_iff_void hs⟩
  · intro number fault
    rw [read_outcome_eq_error_iff, readLines_outcome_eq_error_iff]
    constructor
    · rintro ⟨before, line, after, fault', hl, hb, hbad, hf⟩
      obtain ⟨rfl, rfl⟩ := Failure.malformed.inj hf
      exact ⟨before, line, after, hl, Nat.add_comm .., hbad, hb⟩
    · rintro ⟨before, line, after, hl, rfl, hbad, hb⟩
      exact ⟨before, line, after, fault, hl, hb, hbad, by rw [Nat.add_comm]⟩

/-- Ranges that overlap, with a byte order mark, both ends of lines and no newline at the end, and a
listing whose second line is the first of two bad ones. -/
theorem read_overlap_and_two_faults :
    (∃ s, (read "\uFEFF0041..0043\r\n0042;x\n# end").outcome = .ok s ∧ s.contains 0x43 = true ∧
      s.size = (named ["0041..0043".toList, "0042;x".toList, "# end".toList]).ncard ∧
      s.isEmpty = false) ∧
    (read "41\n.zz\n;").outcome = .error (.malformed 2 (.notHex ".zz")) := by
  constructor
  · obtain ⟨text, ht⟩ : ∃ text, text = "\uFEFF0041..0043\r\n0042;x\n# end" := ⟨_, rfl⟩
    have hl : linesOf text = ["0041..0043".toList, "0042;x".toList, "# end".toList] := by
      rw [ht]
      decide
    have hr : readEntry "0041..0043".toList = .ok (some (.range 0x41 0x43)) := by decide
    obtain ⟨hok, hset, -⟩ := read_union_or_first_fault text
    rw [hl] at hok hset
    obtain ⟨s, hs⟩ := hok.mpr (show Readable _ by decide)
    obtain ⟨hc, hn, he⟩ := hset s hs
    rw [← ht]
    refine ⟨s, hs, (hc 0x43).mpr ⟨_, List.mem_cons_self, _, hr, by decide, by decide⟩, hn, ?_⟩
    rw [← Bool.not_eq_true, he]
    decide
  · obtain ⟨-, -, hf⟩ := read_union_or_first_fault "41\n.zz\n;"
    refine (hf 2 (.notHex ".zz")).mpr ⟨["41".toList], ".zz".toList, [";".toList], ?_, rfl, ?_, ?_⟩
    · decide
    · decide
    · exact show Readable _ by decide

end PropertyTable.Listing
