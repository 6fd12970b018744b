import Mathlib.Data.Set.Basic
import PropertyTable.Listing
import PropertyTable.Proofs.CodeSet.Insertion
import PropertyTable.Proofs.Listing.Grammar

/-!
# The members of a listing

A listing is read if every line of it has a meaning, and then its set is the union of the ranges
that its lines name.
-/

namespace PropertyTable.Listing

/-- The ranges that lines name, in order; a line without entry, or without meaning, names none. -/
def rangesOf (lines : List (List Char)) : List CodeRange :=
  lines.filterMap fun line ↦ (readEntry line).toOption.join

/-- Every line has a meaning. -/
def Readable (lines : List (List Char)) : Prop :=
  ∀ line ∈ lines, ∃ entry, readEntry line = .ok entry

instance (lines : List (List Char)) : Decidable (Readable lines) :=
  decidable_of_iff (∀ line ∈ lines, (readEntry line).toOption.isSome = true) <| by
    refine forall₂_congr fun line _ ↦ ?_
    cases readEntry line with
    | error fault => simp [Except.toOption]
    | ok entry => simp [Except.toOption]

theorem mem_rangesOf {lines : List (List Char)} {r : CodeRange} :
    r ∈ rangesOf lines ↔ ∃ line ∈ lines, readEntry line = .ok (some r) := by
  rw [rangesOf, List.mem_filterMap]
  refine exists_congr fun line ↦ and_congr_right fun _ ↦ ?_
  cases readEntry line with
  | error fault => simp [Except.toOption]
  | ok entry => simp [Except.toOption]

@[simp] theorem rangesOf_nil : rangesOf [] = [] := rfl

theorem rangesOf_cons_none {line : List Char} (h : readEntry line = .ok none)
    (rest : List (List Char)) : rangesOf (line :: rest) = rangesOf rest := by
  simp [rangesOf, h, Except.toOption]

theorem rangesOf_cons_some {line : List Char} {r : CodeRange} (h : readEntry line = .ok (some r))
    (rest : List (List Char)) : rangesOf (line :: rest) = r :: rangesOf rest := by
  simp [rangesOf, h, Except.toOption]

theorem readable_cons {line : List Char} {rest : List (List Char)} :
    Readable (line :: rest) ↔ (∃ entry, readEntry line = .ok entry) ∧ Readable rest :=
  List.forall_mem_cons

/-- What lines give, starting from earlier lines: their ranges are added in order, and counted. -/
def Progress.extend (p : Progress) (rs : List CodeRange) : Progress :=
  ⟨rs.foldl CodeSet.insertRange p.set, p.total + (rs.map CodeRange.size).sum⟩

@[simp] theorem Progress.extend_nil (p : Progress) : p.extend [] = p := rfl

theorem Progress.extend_cons (p : Progress) (r : CodeRange) (rs : List CodeRange) :
    p.extend (r :: rs) = Progress.extend ⟨p.set.insertRange r, p.total + r.size⟩ rs := by
  simp [extend, Nat.add_assoc]

/-- One line: its failure, or its range added. -/
theorem readLine_outcome (p : Progress) (number : Nat) (line : List Char) :
    (readLine p number line).outcome = match readEntry line with
      | .error fault => .error (.malformed number fault)
      | .ok entry => .ok (p.extend entry.toList) := by
  unfold readLine
  cases readEntry line with
  | error fault => rfl
  | ok entry => cases entry <;> rfl

/-- Lines are read if each of them has a meaning, and give the union of their ranges. -/
theorem readLines_outcome_eq_ok_iff {p q : Progress} {number : Nat} {lines : List (List Char)} :
    (readLines p number lines).outcome = .ok q ↔
      Readable lines ∧ q = p.extend (rangesOf lines) := by
  induction lines generalizing p number with
  | nil => simp [readLines, Readable, eq_comm]
  | cons line rest ih =>
    rw [readLines, Logged.outcome_bind, readLine_outcome, readable_cons]
    cases h : readEntry line with
    | error fault => simp [Except.bind]
    | ok entry =>
      cases entry with
      | none => simp [Except.bind, ih, rangesOf_cons_none h]
      | some r => simp [Except.bind, ih, rangesOf_cons_some h, Progress.extend_cons]

/-- A listing is read as its lines are, and what they give is their set. -/
theorem read_outcome (text : String) :
    (read text).outcome = (readLines .start 1 (linesOf text)).outcome.map Progress.set := by
  rw [read, Logged.outcome_bind]
  cases (readLines .start 1 (linesOf text)).outcome <;> rfl

/-- A listing is read if each line has a meaning, and its set is the union of the lines' ranges. -/
theorem read_outcome_eq_ok_iff {text : String} {s : CodeSet} :
    (read text).outcome = .ok s ↔
      Readable (linesOf text) ∧ s = .ofRanges (rangesOf (linesOf text)) := by
  rw [read_outcome]
  constructor
  · intro h
    cases hq : (readLines .start 1 (linesOf text)).outcome with
    | error failure => simp [hq, Except.map] at h
    | ok q =>
      obtain ⟨hl, rfl⟩ := readLines_outcome_eq_ok_iff.mp hq
      rw [hq] at h
      exact ⟨hl, (Except.ok.inj h).symm⟩
  · rintro ⟨hl, rfl⟩
    rw [readLines_outcome_eq_ok_iff.mpr ⟨hl, rfl⟩]
    rfl

/-- A listing is read if each line has a meaning. -/
theorem exists_read_ok {text : String} (h : Readable (linesOf text)) :
    ∃ s, (read text).outcome = .ok s :=
  ⟨_, read_outcome_eq_ok_iff.mpr ⟨h, rfl⟩⟩

/-- The code points of a listing are those that a line of it names. -/
theorem mem_of_read {text : String} {s : CodeSet} (h : (read text).outcome = .ok s)
    {c : CodePoint} :
    c ∈ s ↔ ∃ line ∈ linesOf text, ∃ r, readEntry line = .ok (some r) ∧ c ∈ r := by
  obtain ⟨-, rfl⟩ := read_outcome_eq_ok_iff.mp h
  rw [CodeSet.mem_ofRanges]
  constructor
  · rintro ⟨⟨r, hr, hc⟩, -⟩
    obtain ⟨line, hl, hr⟩ := mem_rangesOf.mp hr
    exact ⟨line, hl, r, hr, hc⟩
  · rintro ⟨line, hl, r, hr, hc⟩
    exact ⟨⟨r, mem_rangesOf.mpr ⟨line, hl, hr⟩, hc⟩,
      UInt32.le_trans hc.2 (high_le_last_of_readEntry hr)⟩

/-- The code points that lines name. -/
def named (lines : List (List Char)) : Set CodePoint :=
  {c | ∃ line ∈ lines, ∃ r, readEntry line = .ok (some r) ∧ r.low ≤ c ∧ c ≤ r.high}

/-- Those are the ones in the ranges of the lines. -/
theorem mem_named_iff {lines : List (List Char)} {c : CodePoint} :
    c ∈ named lines ↔ ∃ r ∈ rangesOf lines, c ∈ r := by
  simp only [mem_rangesOf]
  constructor
  · rintro ⟨line, hl, r, hr, hc⟩
    exact ⟨r, ⟨line, hl, hr⟩, hc⟩
  · rintro ⟨r, ⟨line, hl, hr⟩, hc⟩
    exact ⟨line, hl, r, hr, hc⟩

/-- A listing has the members that its lines name. -/
theorem mem_iff_named {text : String} {s : CodeSet} (h : (read text).outcome = .ok s)
    {c : CodePoint} :
    c ∈ s ↔ c ∈ named (linesOf text) := mem_of_read h

theorem wellFormed_of_read {text : String} {s : CodeSet} (h : (read text).outcome = .ok s) :
    s.WellFormed := by
  obtain ⟨-, rfl⟩ := read_outcome_eq_ok_iff.mp h
  exact .ofRanges _

end PropertyTable.Listing
