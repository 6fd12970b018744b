import PropertyTable.Proofs.Build.Run

/-!
# Builds in either order

A build depends on directories, on its listing and on what stands in the places of its table and its
scratch file, and it changes those two places at most.  Builds with different tables share none of
these places, so that it does not matter which of them runs first.
-/

namespace PropertyTable

open FileTree

/-- A file that is left alone is read as before. -/
theorem FileTree.SameBut.readText_eq {changed : Set (List String)} {t t' : FileTree}
    (hs : SameBut changed t t') {path : String} (hp : ∀ names ∈ t.places path, names ∉ changed)
    {text : String} (h : t.readText path = .ok text) : t'.readText path = .ok text := by
  obtain ⟨bytes, hr, hd⟩ := bind_eq_ok_iff.mp h
  obtain ⟨names, hn, hfile⟩ := exists_place?_of_read hr
  refine bind_eq_ok_iff.mpr ⟨bytes, ?_, hd⟩
  rw [read_of_place? ((hs.place?_eq path).trans hn), hs.node?_eq names (hp names hn), hfile]

namespace Build

variable {b g h : Build} {t t' : FileTree} {changed : Set (List String)}

/-! ## What a build depends on -/

theorem prepare_outcome_of_sameBut (hs : SameBut changed t t')
    (hi : ∀ names ∈ t.places b.inputPath, names ∉ changed) {p : Product}
    (hp : (b.prepare (t.readText b.inputPath)).outcome = .ok p) :
    (b.prepare (t'.readText b.inputPath)).outcome = .ok p := by
  obtain ⟨text, htext, hp⟩ := prepare_outcome_eq_ok_iff.mp hp
  exact prepare_outcome_eq_ok_iff.mpr ⟨text, hs.readText_eq hi htext, hp⟩

/-- The same table is made, or none, if the listing is left alone. -/
theorem prepare_outcome_congr (hs : SameBut changed t t')
    (hi : ∀ names ∈ t.places b.inputPath, names ∉ changed) {p : Product} :
    (b.prepare (t.readText b.inputPath)).outcome = .ok p ↔
      (b.prepare (t'.readText b.inputPath)).outcome = .ok p := by
  constructor
  · exact prepare_outcome_of_sameBut hs hi
  · rw [← hs.places_eq] at hi
    exact prepare_outcome_of_sameBut hs.symm hi

/-- A build succeeds as before, with the same report, if its listing is left alone. -/
theorem run_outcome_congr (hs : SameBut changed t t')
    (hi : ∀ names ∈ t.places b.inputPath, names ∉ changed) (report : Report) :
    ((b.run disk).run t).1.outcome = .ok report ↔ ((b.run disk).run t').1.outcome = .ok report := by
  simp only [run_outcome_eq_ok_iff, prepare_outcome_congr hs hi, hs.replaceable_iff]

/-! ## What a build changes -/

/-- The places that a build may change: that of its table and that of its scratch file. -/
def touched (b : Build) (t : FileTree) : Set (List String) :=
  t.places b.outputPath ∪ t.places (Disk.scratchPath b.outputPath)

theorem touched_of_sameBut (hs : SameBut changed t t') : b.touched t' = b.touched t := by
  rw [touched, touched, hs.places_eq, hs.places_eq]

/-- However a build ends, all other places stay as they were. -/
theorem sameBut_run (b : Build) (t : FileTree) :
    SameBut (b.touched t) t ((b.run disk).run t).2 := by
  cases hp : (b.prepare (t.readText b.inputPath)).outcome with
  | error failure =>
    rw [(run_of_prepare_error hp).2]
    exact .refl _ t
  | ok p =>
    rw [(run_of_prepare_ok hp).2]
    exact sameBut_replace t _ _

/-- What a replacement leaves in the places that it touches does not depend on other places. -/
theorem node?_replace_congr (hs : SameBut changed t t') (contents : String) {names : List String}
    (hn : names ∈ b.touched t) (hc : names ∉ changed) :
    ((disk.replace b.outputPath contents).run t').2.node? names
      = ((disk.replace b.outputPath contents).run t).2.node? names := by
  rcases hn with hnew | hscratch
  · have hnew' := (hs.place?_eq _).trans hnew
    by_cases hr : t.Replaceable b.outputPath
    · obtain ⟨new, _, hp, -, hfile, -⟩ := replace_of_ok (replace_ok_iff.mpr hr)
      obtain ⟨new', _, hp', -, hfile', -⟩ :=
        replace_of_ok (replace_ok_iff.mpr ((hs.replaceable_iff _).mpr hr))
      obtain rfl := Option.some.inj (hnew.symm.trans hp)
      obtain rfl := Option.some.inj (hnew'.symm.trans hp')
      rw [hfile, hfile']
    · rw [node?_replace_of_not_replaceable hnew hr,
        node?_replace_of_not_replaceable hnew' (mt (hs.replaceable_iff _).mp hr),
        hs.node?_eq names hc]
  · rw [node?_scratch_replace hscratch, node?_scratch_replace ((hs.place?_eq _).trans hscratch)]
    simp only [hs.directory_iff]

/-- What a build leaves in the places that it touches depends only on these, on its listing and on
directories. -/
theorem node?_run_congr (hs : SameBut changed t t')
    (hi : ∀ names ∈ t.places b.inputPath, names ∉ changed) {names : List String}
    (hn : names ∈ b.touched t) (hc : names ∉ changed) :
    ((b.run disk).run t').2.node? names = ((b.run disk).run t).2.node? names := by
  cases hp : (b.prepare (t.readText b.inputPath)).outcome with
  | ok p =>
    rw [(run_of_prepare_ok hp).2, (run_of_prepare_ok ((prepare_outcome_congr hs hi).mp hp)).2]
    exact node?_replace_congr hs p.contents hn hc
  | error failure =>
    cases hp' : (b.prepare (t'.readText b.inputPath)).outcome with
    | ok p =>
      rw [← prepare_outcome_congr hs hi, hp] at hp'
      cases hp'
    | error failure' =>
      rw [(run_of_prepare_error hp).2, (run_of_prepare_error hp').2]
      exact hs.node?_eq names hc

/-! ## What two builds share -/

/-- The tables of two builds are different files. -/
def Apart (t : FileTree) (g h : Build) : Prop :=
  ∀ names, t.place? g.outputPath = some names → t.place? h.outputPath ≠ some names

theorem Apart.symm (hgh : Apart t g h) : Apart t h g := fun names hn hn' ↦ hgh names hn' hn

/-- Tables of different properties, or in different languages, are different files. -/
theorem apart_of_ne (hne : (g.property, g.language) ≠ (h.property, h.language)) (t : FileTree) :
    Apart t g h := by
  intro names hn hn'
  exact ne_of_endsIn hn hn' g.endsIn_outputPath h.endsIn_outputPath
    (toList_tableFile_ne _ _ _ _ hne).1 rfl

/-- No table has the name of a scratch file. -/
theorem toList_tableFile_ne_scratch (p q : Property) (l m : Language) :
    (p.tableFile l).toList ≠ (q.tableFile m).toList ++ ".tmp".toList := by
  cases p <;> cases q <;> cases l <;> cases m <;> decide

/-- The scratch file of a table lies beside the table. -/
theorem place?_outputPath_of_scratch {names : List String}
    (hn : t.place? (Disk.scratchPath b.outputPath) = some names) :
    t.place? b.outputPath = some (names.dropLast ++ [b.property.tableFile b.language]) := by
  have hdots : (b.property.tableFile b.language).toList ≠ ['.'] ∧
      (b.property.tableFile b.language).toList ≠ ['.', '.'] := by
    cases b.property <;> cases b.language <;> decide
  have hp := place?_of_append b.endsIn_outputPath hdots (by decide) hn
  rwa [String.ofList_toList] at hp

/-- Different tables have different scratch files: their places are beside those of the tables. -/
theorem Apart.scratch_ne (hgh : Apart t g h) {names : List String}
    (hg : t.place? (Disk.scratchPath g.outputPath) = some names) :
    t.place? (Disk.scratchPath h.outputPath) ≠ some names := by
  intro hh
  have hl := (getLast?_of_place? hg g.endsIn_scratchPath).symm.trans
    (getLast?_of_place? hh h.endsIn_scratchPath)
  have hw := List.append_cancel_right (String.ofList_injective (Option.some.inj hl))
  apply hgh _ (place?_outputPath_of_scratch hg)
  rw [place?_outputPath_of_scratch hh, String.toList_inj.mp hw]

/-- Builds with different tables touch different places. -/
theorem Apart.touched_notMem (hgh : Apart t g h) {names : List String} (hn : names ∈ g.touched t) :
    names ∉ h.touched t := by
  rintro (hh | hh)
  · rcases hn with hg | hg
    · exact hgh names hg hh
    · exact ne_of_endsIn hh hg h.endsIn_outputPath g.endsIn_scratchPath
        (toList_tableFile_ne_scratch _ _ _ _) rfl
  · rcases hn with hg | hg
    · exact ne_of_endsIn hg hh g.endsIn_outputPath h.endsIn_scratchPath
        (toList_tableFile_ne_scratch _ _ _ _) rfl
    · exact hgh.scratch_ne hg hh

/-- No build touches a listing. -/
theorem listing_notMem_touched (g h : Build) (t : FileTree) :
    ∀ names ∈ t.places g.inputPath, names ∉ h.touched t := by
  rintro names hg (hh | hh)
  · exact ne_of_endsIn hg hh g.endsIn_inputPath h.endsIn_outputPath (toList_listingFile_ne ..).1 rfl
  · exact ne_of_endsIn hg hh g.endsIn_inputPath h.endsIn_scratchPath
      (toList_listingFile_ne ..).2 rfl

/-! ## Either order -/

/-- In the places of one of two builds, both orders leave what this build leaves by itself. -/
theorem node?_run_run_of_touched (hgh : Apart t g h) {names : List String}
    (hn : names ∈ g.touched t) :
    ((h.run disk).run ((g.run disk).run t).2).2.node? names
      = ((g.run disk).run ((h.run disk).run t).2).2.node? names := by
  have hg := g.sameBut_run t
  have hh := h.sameBut_run t
  have hnot := hgh.touched_notMem hn
  calc ((h.run disk).run ((g.run disk).run t).2).2.node? names
    _ = ((g.run disk).run t).2.node? names := by
      apply (h.sameBut_run _).node?_eq
      rwa [touched_of_sameBut hg]
    _ = ((g.run disk).run ((h.run disk).run t).2).2.node? names :=
      (node?_run_congr hh (listing_notMem_touched g h t) hn hnot).symm

/-- Two builds with different tables leave the same tree in either order. -/
theorem run_run_eq (hgh : Apart t g h) :
    ((h.run disk).run ((g.run disk).run t).2).2 = ((g.run disk).run ((h.run disk).run t).2).2 := by
  have hg := g.sameBut_run t
  have hh := h.sameBut_run t
  have hgh' := h.sameBut_run ((g.run disk).run t).2
  have hhg' := g.sameBut_run ((h.run disk).run t).2
  rw [touched_of_sameBut hg] at hgh'
  rw [touched_of_sameBut hh] at hhg'
  apply ext_node?
  · rw [hgh'.here_eq, hg.here_eq, hhg'.here_eq, hh.here_eq]
  · intro names
    by_cases hn : names ∈ g.touched t
    · exact node?_run_run_of_touched hgh hn
    by_cases hn' : names ∈ h.touched t
    · exact (node?_run_run_of_touched hgh.symm hn').symm
    · rw [hgh'.node?_eq names hn', hg.node?_eq names hn, hhg'.node?_eq names hn,
        hh.node?_eq names hn']

/-- Builds with different tables commute.  Tables of different properties, or in different
languages, are different files in any tree and from any directories; and whenever the tables of two
builds are different files, the builds leave the same tree in either order, and each of them
succeeds in the one order just if it succeeds in the other, with the same report. -/
theorem run_comm (g h : Build) (t : FileTree) :
    ((g.property, g.language) ≠ (h.property, h.language) →
      ∀ names, t.place? g.outputPath = some names → t.place? h.outputPath ≠ some names) ∧
    ((∀ names, t.place? g.outputPath = some names → t.place? h.outputPath ≠ some names) →
      ((h.run disk).run ((g.run disk).run t).2).2 = ((g.run disk).run ((h.run disk).run t).2).2 ∧
      (∀ report, ((g.run disk).run t).1.outcome = .ok report ↔
        ((g.run disk).run ((h.run disk).run t).2).1.outcome = .ok report) ∧
      ∀ report, ((h.run disk).run t).1.outcome = .ok report ↔
        ((h.run disk).run ((g.run disk).run t).2).1.outcome = .ok report) := by
  constructor
  · intro hne
    exact apart_of_ne hne t
  · intro hgh
    refine ⟨run_run_eq hgh, ?_, ?_⟩
    · exact run_outcome_congr (h.sameBut_run t) (listing_notMem_touched g h t)
    · exact run_outcome_congr (g.sameBut_run t) (listing_notMem_touched h g t)

/-- A build that succeeds, and one with a directory in the place of its table, which fails half
way. -/
theorem run_comm_samples :
    let t :=
      ((withListing "0041\n").setFile [""] "XID_CONTINUE.txt" "0042".toUTF8).addDirectory [""]
      "XID_CONTINUE.c"
    let g : Build := ⟨.xidStart, .c, ".", "."⟩
    let h : Build := ⟨.xidContinue, .c, "", "./"⟩
    ((h.run disk).run ((g.run disk).run t).2).2 = ((g.run disk).run ((h.run disk).run t).2).2 ∧
    (∃ report, ((g.run disk).run t).1.outcome = .ok report ∧
      ((g.run disk).run ((h.run disk).run t).2).1.outcome = .ok report) ∧
    ∀ report, ((h.run disk).run t).1.outcome ≠ .ok report ∧
      ((h.run disk).run ((g.run disk).run t).2).1.outcome ≠ .ok report := by
  intro t g h
  obtain ⟨hne, hcomm⟩ := run_comm g h t
  obtain ⟨htree, hg, hh⟩ := hcomm (hne (by decide))
  obtain ⟨p, hp⟩ := exists_render_ok g "0041\n" (by decide)
  have htext : t.readText g.inputPath = .ok "0041\n" := by decide
  have hfree : t.Replaceable g.outputPath :=
    ⟨["", "XID_START.c"], ["", "XID_START.c.tmp"], by decide, by decide, by decide, by decide⟩
  have hrun : ((g.run disk).run t).1.outcome = .ok (g.report p) :=
    run_outcome_eq_ok_iff.mpr ⟨p, prepare_outcome_eq_ok_iff.mpr ⟨_, htext, hp⟩, hfree, rfl⟩
  have hblocked : ¬t.Replaceable h.outputPath := by
    rintro ⟨new, _, hnew, -, hdir, -⟩
    have hnew' : t.place? h.outputPath = some ["", "XID_CONTINUE.c"] := by decide
    obtain rfl := Option.some.inj (hnew'.symm.trans hnew)
    exact hdir (by decide)
  have hfail : ∀ report, ((h.run disk).run t).1.outcome ≠ .ok report := by
    intro report hr
    obtain ⟨_, -, hr, -⟩ := run_outcome_eq_ok_iff.mp hr
    exact hblocked hr
  exact ⟨htree, ⟨_, hrun, (hg _).mp hrun⟩,
    fun report ↦ ⟨hfail report, mt (hh report).mpr (hfail report)⟩⟩

end Build

end PropertyTable
