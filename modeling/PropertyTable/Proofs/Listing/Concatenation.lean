import PropertyTable.Proofs.Bitmap.Packing
import PropertyTable.Proofs.Listing.FirstFault
import PropertyTable.Proofs.Text.Lines

/-!
# Listings one after another

A listing that ends with its last line can be followed by another one.  The lines of both are then
read one after another: the first fault is reported where it stands now, and without a fault the set
is the union of both sets, so that its groups are those of both, joined one by one.
-/

namespace PropertyTable.Listing

open Text

/-! ## Lines -/

/-- The lines of two listings are those of the first and then those of the second.  A byte order
mark is dropped from the first only, so that the second must not begin with one. -/
theorem linesOf_append {a b : String} (ha : Closed a.toList) (hb : b.toList.head? ≠ some '\uFEFF') :
    linesOf (a ++ b) = linesOf a ++ linesOf b := by
  rw [linesOf, String.toList_append, dropMark_append fun _ ↦ hb, lines_append_of_closed ha.dropMark,
    linesOf, linesOf, dropMark_eq_self hb]

theorem length_linesOf {a : String} (ha : Closed a.toList) :
    (linesOf a).length = a.toList.count '\n' := by
  rw [linesOf, length_lines_of_closed ha.dropMark, count_newline_dropMark]

theorem readable_append {as bs : List (List Char)} :
    Readable (as ++ bs) ↔ Readable as ∧ Readable bs :=
  List.forall_mem_append

theorem named_append (as bs : List (List Char)) : named (as ++ bs) = named as ∪ named bs := by
  ext c
  simp only [named, List.mem_append, or_and_right, exists_or, Set.mem_union, Set.mem_ofPred_eq]

/-! ## Faults -/

/-- Reading goes on with the second lines where it ended with the first. -/
theorem readLines_append_outcome (p : Progress) (number : Nat) (as bs : List (List Char)) :
    (readLines p number (as ++ bs)).outcome
      = (readLines p number as).outcome.bind fun q ↦
        (readLines q (number + as.length) bs).outcome := by
  induction as generalizing p number with
  | nil => rfl
  | cons line as ih =>
    rw [List.cons_append, readLines, readLines, Logged.outcome_bind, Logged.outcome_bind]
    cases (readLine p number line).outcome with
    | error failure => rfl
    | ok q =>
      show (readLines q (number + 1) (as ++ bs)).outcome = _
      rw [ih, List.length_cons, Nat.add_assoc, Nat.add_comm 1]
      rfl

/-- Lines have the same first fault after other lines, under a number that is greater by as many. -/
theorem readLines_outcome_shift {p q : Progress} {number line : Nat} {lines : List (List Char)}
    {fault : EntryFault} (h : (readLines p number lines).outcome = .error (.malformed line fault))
    (more : Nat) :
    (readLines q (number + more) lines).outcome = .error (.malformed (line + more) fault) := by
  obtain ⟨before, bad, after, fault', hl, hb, hbad, hf⟩ := readLines_outcome_eq_error_iff.mp h
  obtain ⟨rfl, rfl⟩ := Failure.malformed.inj hf
  apply readLines_outcome_eq_error_iff.mpr
  exact ⟨before, bad, after, fault, hl, hb, hbad, by rw [Nat.add_right_comm]⟩

/-! ## Both outcomes -/

variable {a b : String}

/-- A fault of the first listing is the fault of both. -/
theorem read_append_of_error (ha : Closed a.toList) (hb : b.toList.head? ≠ some '\uFEFF')
    {failure : Failure} (h : (read a).outcome = .error failure) :
    (read (a ++ b)).outcome = .error failure := by
  rw [read_outcome_eq_error_iff] at h ⊢
  rw [linesOf_append ha hb, readLines_append_outcome, h]
  rfl

/-- After a listing without a fault, the fault of the second one is reported with the lines of the
first counted in. -/
theorem read_append_of_ok_of_error (ha : Closed a.toList) (hb : b.toList.head? ≠ some '\uFEFF')
    {s : CodeSet} (hs : (read a).outcome = .ok s) {line : Nat} {fault : EntryFault}
    (h : (read b).outcome = .error (.malformed line fault)) :
    (read (a ++ b)).outcome = .error (.malformed (line + a.toList.count '\n') fault) := by
  obtain ⟨hr, -⟩ := read_outcome_eq_ok_iff.mp hs
  rw [read_outcome_eq_error_iff] at h ⊢
  rw [linesOf_append ha hb, readLines_append_outcome, readLines_outcome_eq_ok_iff.mpr ⟨hr, rfl⟩,
    ← length_linesOf ha]
  exact readLines_outcome_shift h _

/-- Two listings without a fault give the union of their sets. -/
theorem exists_read_append_of_ok (ha : Closed a.toList) (hb : b.toList.head? ≠ some '\uFEFF')
    {s t : CodeSet} (hs : (read a).outcome = .ok s) (ht : (read b).outcome = .ok t) :
    ∃ u, (read (a ++ b)).outcome = .ok u ∧ ∀ c, c ∈ u ↔ c ∈ s ∨ c ∈ t := by
  obtain ⟨hra, -⟩ := read_outcome_eq_ok_iff.mp hs
  obtain ⟨hrb, -⟩ := read_outcome_eq_ok_iff.mp ht
  have hr : Readable (linesOf (a ++ b)) := by
    rw [linesOf_append ha hb]
    exact readable_append.mpr ⟨hra, hrb⟩
  have hu := read_outcome_eq_ok_iff.mpr ⟨hr, rfl⟩
  refine ⟨_, hu, fun c ↦ ?_⟩
  rw [mem_iff_named hu, linesOf_append ha hb, named_append, Set.mem_union, mem_iff_named hs,
    mem_iff_named ht]

/-- Reading takes listings one after another to the union of what they give.  If the first listing
is empty or ends in a newline, and the second does not begin with a byte order mark, a fault of the
first is reported unchanged; a fault of the second, after a first without one, is reported with the
newlines of the first added to its line; and two listings without a fault give the union of their
sets, whose groups are the groups of both, joined one by one. -/
theorem read_append (ha : Closed a.toList) (hb : b.toList.head? ≠ some '\uFEFF') :
    (∀ failure, (read a).outcome = .error failure → (read (a ++ b)).outcome = .error failure) ∧
    (∀ s line fault, (read a).outcome = .ok s → (read b).outcome = .error (.malformed line fault) →
      (read (a ++ b)).outcome = .error (.malformed (line + a.toList.count '\n') fault)) ∧
    (∀ s t, (read a).outcome = .ok s → (read b).outcome = .ok t →
      ∃ u x y z, (read (a ++ b)).outcome = .ok u ∧
        (∀ c, u.contains c = (s.contains c || t.contains c)) ∧
        (Bitmap.pack s).outcome = .ok x ∧ (Bitmap.pack t).outcome = .ok y ∧
        (Bitmap.pack u).outcome = .ok z ∧
        z.groups = Array.zipWith (· ||| ·) x.groups y.groups) := by
  refine ⟨?_, ?_, ?_⟩
  · intro failure h
    exact read_append_of_error ha hb h
  · intro s line fault hs h
    exact read_append_of_ok_of_error ha hb hs h
  · intro s t hs ht
    obtain ⟨u, hu, hc⟩ := exists_read_append_of_ok ha hb hs ht
    refine ⟨u, _, _, _, hu, fun c ↦ ?_, Bitmap.pack_outcome s, Bitmap.pack_outcome t,
      Bitmap.pack_outcome u, Bitmap.groups_ofSet_of_union hc⟩
    rw [Bool.eq_iff_iff, Bool.or_eq_true]
    exact hc c

/-- A first listing with a fault, a second one with a fault after a mark and both ends of lines, and
two that overlap. -/
theorem read_append_samples :
    (read ("zz\n" ++ "41")).outcome = .error (.malformed 1 (.notHex "zz")) ∧
    (read ("\uFEFF41\r\n# A\n" ++ "42\nzz")).outcome = .error (.malformed 4 (.notHex "zz")) ∧
    ∃ s t u x y z, (read "\uFEFF41\r\n# A\n").outcome = .ok s ∧ (read "41..43").outcome = .ok t ∧
      (read ("\uFEFF41\r\n# A\n" ++ "41..43")).outcome = .ok u ∧
      (∀ c, u.contains c = (s.contains c || t.contains c)) ∧
      (Bitmap.pack s).outcome = .ok x ∧ (Bitmap.pack t).outcome = .ok y ∧
      (Bitmap.pack u).outcome = .ok z ∧ z.groups = Array.zipWith (· ||| ·) x.groups y.groups := by
  have hread : ∀ text, Readable (linesOf text) → ∃ s, (read text).outcome = .ok s :=
    fun text h ↦ ⟨_, read_outcome_eq_ok_iff.mpr ⟨h, rfl⟩⟩
  obtain ⟨s, hs⟩ := hread "\uFEFF41\r\n# A\n" (by decide)
  obtain ⟨t, ht⟩ := hread "41..43" (by decide)
  have hbad : (read "zz\n").outcome = .error (.malformed 1 (.notHex "zz")) := by decide
  have hbad' : (read "42\nzz").outcome = .error (.malformed 2 (.notHex "zz")) := by decide
  refine ⟨?_, ?_, s, t, ?_⟩
  · exact (read_append (by decide) (by decide)).1 _ hbad
  · exact (read_append (by decide) (by decide)).2.1 s 2 _ hs hbad'
  · obtain ⟨u, x, y, z, h⟩ := (read_append (by decide) (by decide)).2.2 s t hs ht
    exact ⟨u, x, y, z, hs, ht, h⟩

end PropertyTable.Listing
