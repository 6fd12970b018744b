import Mathlib.Order.Bounds.Defs
import PropertyTable.Proofs.Bitmap.Counting
import PropertyTable.Proofs.Build.Run
import PropertyTable.Proofs.Listing.FirstFault

/-!
# Reports tell the truth

The numbers of a report come from the set of a listing, from its ends and from the groups of its
bitmap.  They agree with each other, with the code points that the lines of the listing name, and
with the groups that are read back from the file that was written.
-/

namespace PropertyTable

/-! ## The ends of a set -/

/-- The first element of a list in order is below all of them. -/
theorem head?_eq_some_iff_of_pairwise {α : Type} {r : α → α → Prop} [Std.Refl r] [Std.Antisymm r]
    {l : List α} (h : l.Pairwise r) {a : α} : l.head? = some a ↔ a ∈ l ∧ ∀ b ∈ l, r a b := by
  cases l with
  | nil => simp
  | cons d l =>
    have hd : ∀ b ∈ d :: l, r d b :=
      List.forall_mem_cons.mpr ⟨Std.Refl.refl d, fun _ ↦ List.rel_of_pairwise_cons h⟩
    rw [List.head?_cons, Option.some.injEq]
    constructor
    · rintro rfl
      exact ⟨List.mem_cons_self, hd⟩
    · rintro ⟨ha, hall⟩
      exact Std.Antisymm.antisymm d a (hd a ha) (hall d List.mem_cons_self)

namespace CodeSet

variable {s : CodeSet} {c : CodePoint}

/-- The first member is the least one. -/
theorem first?_eq_some_iff : s.first? = some c ↔ IsLeast {d | d ∈ s} c := by
  have hle : s.toList.Pairwise (· ≤ ·) := (pairwise_toList s).imp UInt32.le_of_lt
  rw [first?, head?_eq_some_iff_of_pairwise hle]
  simp only [mem_toList]
  rfl

/-- The last member is the greatest one. -/
theorem last?_eq_some_iff : s.last? = some c ↔ IsGreatest {d | d ∈ s} c := by
  have hge : s.toList.reverse.Pairwise (· ≥ ·) :=
    List.pairwise_reverse.mpr ((pairwise_toList s).imp UInt32.le_of_lt)
  rw [last?, ← List.head?_reverse, head?_eq_some_iff_of_pairwise hge]
  simp only [List.mem_reverse, mem_toList]
  rfl

theorem first?_eq_none_iff : s.first? = none ↔ {d | d ∈ s} = ∅ := by
  rw [first?, List.head?_eq_none_iff, List.eq_nil_iff_forall_not_mem,
    Set.eq_empty_iff_forall_notMem]
  simp only [mem_toList, Set.mem_ofPred_eq]

theorem last?_eq_none_iff : s.last? = none ↔ {d | d ∈ s} = ∅ := by
  rw [← first?_eq_none_iff, first?, last?, List.head?_eq_none_iff, List.getLast?_eq_none_iff]

end CodeSet

/-! ## Reports -/

/-- What a report says is so of a set of code points and of the groups of a table. -/
structure Report.Tells (report : Report) (members : Set CodePoint) (groups : List UInt8) :
    Prop where
  /-- The members are counted, ... -/
  members_eq : report.members = members.ncard
  /-- ... and so are the bits that are set. -/
  members_eq_ones : report.members = (groups.map ones).sum
  groups_eq : report.groups = groups.length
  length_groups : groups.length = 25194
  /-- Eight code points share a group, and a group counts if it has a member. -/
  nonzeroGroups_eq : report.nonzeroGroups = ((fun c : CodePoint ↦ c.toNat / 8) '' members).ncard
  first_eq_some_iff : ∀ c, report.first = some c ↔ IsLeast members c
  last_eq_some_iff : ∀ c, report.last = some c ↔ IsGreatest members c
  first_eq_none_iff : report.first = none ↔ members = ∅
  last_eq_none_iff : report.last = none ↔ members = ∅
  nonzeroGroups_eq_zero_iff : report.nonzeroGroups = 0 ↔ members = ∅
  nonzeroGroups_le : report.nonzeroGroups ≤ report.members
  members_le : report.members ≤ 8 * report.nonzeroGroups

namespace Build

open FileTree

variable {b : Build} {t : FileTree}

/-- The report on the table of a listing is about the code points that its lines name. -/
theorem report_tells {text : String} {s : CodeSet} (hs : (Listing.read text).outcome = .ok s)
    (b : Build) (contents : String) :
    (b.report ⟨s, .ofSet s, contents⟩).Tells (Listing.named (Listing.linesOf text))
      (Bitmap.ofSet s).groups.toList := by
  have hmembers : {c | c ∈ s} = Listing.named (Listing.linesOf text) := by
    ext c
    exact Listing.mem_iff_named hs
  have hwf := Listing.wellFormed_of_read hs
  have hsize := Listing.size_eq_ncard_named hs
  rw [← hmembers] at hsize ⊢
  have hones := Bitmap.size_eq_sum_ones hwf
  have hgroups := Bitmap.size_ofSet s
  have hnonzero := Bitmap.nonzeroGroups_ofSet s
  have hzero := Bitmap.nonzeroGroups_ofSet_eq_zero_iff hwf
  obtain ⟨hle, hle'⟩ := Bitmap.nonzeroGroups_ofSet_bounds hwf
  have hfirst : ∀ c, s.first? = some c ↔ IsLeast {c | c ∈ s} c := fun _ ↦ CodeSet.first?_eq_some_iff
  have hlast : ∀ c, s.last? = some c ↔ IsGreatest {c | c ∈ s} c := fun _ ↦ CodeSet.last?_eq_some_iff
  have hnofirst : s.first? = none ↔ {c | c ∈ s} = ∅ := CodeSet.first?_eq_none_iff
  have hnolast : s.last? = none ↔ {c | c ∈ s} = ∅ := CodeSet.last?_eq_none_iff
  unfold report
  dsimp only
  -- How the groups and the ends are computed is of no importance from here on.
  generalize Bitmap.ofSet s = bitmap, s.first? = first, s.last? = last at *
  exact {
    members_eq := hsize
    members_eq_ones := hones
    groups_eq := Array.length_toList.symm
    length_groups := Array.length_toList.trans hgroups
    nonzeroGroups_eq := hnonzero
    first_eq_some_iff := hfirst
    last_eq_some_iff := hlast
    first_eq_none_iff := hnofirst
    last_eq_none_iff := hnolast
    nonzeroGroups_eq_zero_iff := hzero
    nonzeroGroups_le := hle
    members_le := hle' }

/-- The report of a build tells the truth about the table that was written.  If a build ends well,
the file at the path of the table has a text, the groups are read back from it, and the numbers of
the report are those of the groups and of the code points that the lines of the listing name: how
many they are, which is how many bits are set; how many groups there are; how many of them hold a
code point; and the least code point and the greatest one, which are missing just if there is
none. -/
theorem report_of_run {report : Report} (h : ((b.run disk).run t).1.outcome = .ok report) :
    ∃ text contents groups, t.readText b.inputPath = .ok text ∧
      ((b.run disk).run t).2.read b.outputPath = .ok contents.toUTF8 ∧
      TableSource.readBack contents = some groups ∧
      report.property = b.property ∧ report.output = b.outputPath ∧
      report.Tells (Listing.named (Listing.linesOf text)) groups := by
  obtain ⟨text, p, new, scratch, htext, hp, hnew, -, hfile, -, hsame⟩ := run_of_ok h
  obtain ⟨q, hq, -, rfl⟩ := run_outcome_eq_ok_iff.mp h
  -- The table that the report is about is the one that was written.
  rw [htext, prepare_ok_outcome, hp] at hq
  obtain rfl := Except.ok.inj hq
  obtain ⟨s, hs, rfl⟩ := render_outcome_eq_ok_iff.mp hp
  refine ⟨text, _, _, htext, ?_, TableSource.readBack_render b.property b.language _, rfl, rfl,
    report_tells hs b _⟩
  rw [read_of_place? ((hsame.place?_eq _).trans hnew), hfile]

/-- A listing that names a code point twice and the last one that there is, and one without any. -/
theorem report_of_run_samples :
    let b : Build := ⟨.xidStart, .c, ".", "."⟩
    (∃ report, ((b.run disk).run (withListing "3134A\n41..43;x\n42\n")).1.outcome = .ok report ∧
      report.members = 4 ∧ report.nonzeroGroups = 2 ∧
      report.first = some 0x41 ∧ report.last = some 0x3134A) ∧
    ∃ report, ((b.run disk).run (withListing "# none\n")).1.outcome = .ok report ∧
      report.nonzeroGroups = 0 ∧ report.first = none ∧ report.last = none := by
  intro b
  constructor
  · have htext : (withListing "3134A\n41..43;x\n42\n").readText b.inputPath
        = .ok "3134A\n41..43;x\n42\n" := by
      decide
    obtain ⟨report, h⟩ := exists_run_ok htext (by decide)
      ⟨["", "XID_START.c"], ["", "XID_START.c.tmp"], by decide, by decide, by decide, by decide⟩
    obtain ⟨text, -, groups, htext', -, -, -, -, htells⟩ := report_of_run h
    obtain rfl := Except.ok.inj (htext.symm.trans htext')
    have hnamed : Listing.named (Listing.linesOf "3134A\n41..43;x\n42\n")
        = {0x41, 0x42, 0x43, 0x3134A} := by
      have hranges : Listing.rangesOf (Listing.linesOf "3134A\n41..43;x\n42\n")
          = [.point 0x3134A, .range 0x41 0x43, .point 0x42] := by decide
      ext c
      rw [Listing.mem_named_iff, hranges]
      simp only [List.mem_cons, List.not_mem_nil, or_false, exists_eq_or_imp, exists_eq_left,
        CodeRange.mem_def, CodeRange.low_point, CodeRange.high_point, CodeRange.low_range,
        CodeRange.high_range, Set.mem_insert_iff,
        Set.mem_singleton_iff, UInt32.le_iff_toNat_le, ← UInt32.toNat_inj, UInt32.reduceToNat]
      omega
    rw [hnamed] at htells
    refine ⟨report, h, ?_, ?_, ?_, ?_⟩
    · rw [htells.members_eq, Set.ncard_eq_toFinset_card']
      rfl
    · rw [htells.nonzeroGroups_eq, Set.ncard_eq_toFinset_card']
      rfl
    · refine (htells.first_eq_some_iff _).mpr ⟨by simp, ?_⟩
      rintro c (rfl | rfl | rfl | rfl) <;> decide
    · refine (htells.last_eq_some_iff _).mpr ⟨by simp, ?_⟩
      rintro c (rfl | rfl | rfl | rfl) <;> decide
  · have htext : (withListing "# none\n").readText b.inputPath = .ok "# none\n" := by decide
    obtain ⟨report, h⟩ := exists_run_ok htext (by decide)
      ⟨["", "XID_START.c"], ["", "XID_START.c.tmp"], by decide, by decide, by decide, by decide⟩
    obtain ⟨text, -, groups, htext', -, -, -, -, htells⟩ := report_of_run h
    obtain rfl := Except.ok.inj (htext.symm.trans htext')
    have hnamed : Listing.named (Listing.linesOf "# none\n") = ∅ := by
      have hranges : Listing.rangesOf (Listing.linesOf "# none\n") = [] := by decide
      simp [Set.eq_empty_iff_forall_notMem, Listing.mem_named_iff, hranges]
    exact ⟨report, h, htells.nonzeroGroups_eq_zero_iff.mpr hnamed,
      htells.first_eq_none_iff.mpr hnamed, htells.last_eq_none_iff.mpr hnamed⟩

end Build

end PropertyTable
