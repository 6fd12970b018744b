import PropertyTable.Proofs.Build.Table
import PropertyTable.Proofs.FileTree.Replacement

/-!
# What a build does to the files

A build changes nothing unless its listing could be read and its table made.  Then it replaces the
table, and whether this succeeds or not, all other files and all directories stay as they were.
-/

namespace PropertyTable

/-- The text of a file. -/
def FileTree.readText (t : FileTree) (path : String) : Except FileFault String :=
  t.read path >>= Disk.decodeText

theorem FileTree.run_readText (t : FileTree) (path : String) :
    (disk.readText path).run t = (t.readText path, t) := by rfl

theorem FileTree.exists_place?_of_readText {t : FileTree} {path text : String}
    (h : t.readText path = .ok text) : ∃ names, t.place? path = some names := by
  obtain ⟨bytes, hr, -⟩ := bind_eq_ok_iff.mp h
  obtain ⟨names, hp, -⟩ := exists_place?_of_read hr
  exact ⟨names, hp⟩

namespace Build

open FileTree

variable {b : Build} {t : FileTree}

/-! ## Names of files -/

/-- A path in a directory ends in the name of the file. -/
theorem endsIn_pathIn (dir : String) {name : String} (hn : name.toList ≠ [])
    (hs : '/' ∉ name.toList) :
    Route.EndsIn (pathIn dir name).toList name.toList := by
  refine ⟨hn, hs, ?_⟩
  unfold pathIn
  split
  · next h =>
    rw [String.toList_append]
    rcases Bool.or_eq_true_iff.mp h with h | h
    · left
      rw [String.isEmpty_iff.mp h]
      rfl
    · right
      obtain ⟨before, hb⟩ := List.getLast?_eq_some_iff.mp (beq_iff_eq.mp h)
      exact ⟨before, by rw [hb, List.append_assoc, List.singleton_append]⟩
  · right
    exact ⟨dir.toList, by simp⟩

theorem endsIn_inputPath (b : Build) :
    Route.EndsIn b.inputPath.toList b.property.listingFile.toList := by
  apply endsIn_pathIn <;> cases b.property <;> decide

theorem endsIn_outputPath (b : Build) :
    Route.EndsIn b.outputPath.toList (b.property.tableFile b.language).toList := by
  apply endsIn_pathIn <;> cases b.property <;> cases b.language <;> decide

theorem endsIn_scratchPath (b : Build) : Route.EndsIn (Disk.scratchPath b.outputPath).toList
    ((b.property.tableFile b.language).toList ++ ".tmp".toList) := by
  rw [Disk.scratchPath, String.toList_append]
  exact b.endsIn_outputPath.append (by decide)

/-- Listings have other names than tables and their scratch files. -/
theorem toList_listingFile_ne (p q : Property) (l : Language) :
    p.listingFile.toList ≠ (q.tableFile l).toList ∧
      p.listingFile.toList ≠ (q.tableFile l).toList ++ ".tmp".toList := by
  cases p <;> cases q <;> cases l <;> decide

/-- Tables have other names than scratch files, and each its own. -/
theorem toList_tableFile_ne (p q : Property) (l m : Language) (h : (p, l) ≠ (q, m)) :
    (p.tableFile l).toList ≠ (q.tableFile m).toList ∧
      (p.tableFile l).toList ≠ (q.tableFile m).toList ++ ".tmp".toList := by
  revert h
  cases p <;> cases q <;> cases l <;> cases m <;> decide

/-! ## The stages of a build -/

theorem prepare_ok_outcome (b : Build) (text : String) :
    (b.prepare (.ok text)).outcome = (b.render text).outcome := by rfl

theorem prepare_error_outcome (b : Build) (fault : FileFault) :
    (b.prepare (.error fault)).outcome = .error (.inaccessible b.inputPath fault) := by rfl

theorem prepare_outcome_eq_ok_iff {input : Except FileFault String} {p : Product} :
    (b.prepare input).outcome = .ok p ↔
      ∃ text, input = .ok text ∧ (b.render text).outcome = .ok p := by
  cases input with
  | error fault => simp [prepare_error_outcome]
  | ok text => simp [prepare_ok_outcome]

theorem render_outcome_eq_error_iff {text : String} {failure : Failure} :
    (b.render text).outcome = .error failure ↔ (Listing.read text).outcome = .error failure := by
  cases h : (Listing.read text).outcome with
  | error failure' => rw [render, Logged.outcome_bind_of_error h]; simp
  | ok s => rw [render_outcome_of_read h]; simp

/-- The last stage of a build, which writes what was made. -/
def save (b : Build) (p : Product) : StateM FileTree (Logged Report) := do
  let saved ← disk.replace b.outputPath p.contents
  return do
    saved
    .note (.reported (b.report p))
    return b.report p

theorem run_eq (b : Build) (t : FileTree) :
    (b.run disk).run t = ((b.prepare (t.readText b.inputPath)).andThen b.save).run t := by
  rw [run, StateT.run_bind, run_readText]
  rfl

/-- If the table could not be made, the build ends there. -/
theorem run_of_prepare_error {failure : Failure}
    (h : (b.prepare (t.readText b.inputPath)).outcome = .error failure) :
    ((b.run disk).run t).1.outcome = .error failure ∧ ((b.run disk).run t).2 = t := by
  rw [run_eq, Logged.andThen, h]
  exact ⟨rfl, rfl⟩

/-- Otherwise the build goes on with the replacement of the table, and ends as this does. -/
theorem run_of_prepare_ok {p : Product} (h : (b.prepare (t.readText b.inputPath)).outcome = .ok p) :
    ((b.run disk).run t).1.outcome
        = ((disk.replace b.outputPath p.contents).run t).1.outcome.map (fun _ ↦ b.report p) ∧
      ((b.run disk).run t).2 = ((disk.replace b.outputPath p.contents).run t).2 := by
  rw [run_eq, Logged.andThen, h]
  simp only [save]
  -- What the replacement does is of no importance here.
  generalize disk.replace b.outputPath p.contents = replacement
  refine ⟨?_, rfl⟩
  change ((replacement.run t).1 >>= _ : Logged Report).outcome = _
  rw [Logged.outcome_bind]
  cases (replacement.run t).1.outcome <;> rfl

/-! ## All outcomes -/

/-- A build succeeds if its table can be made and nothing is in the way of the table. -/
theorem run_outcome_eq_ok_iff {report : Report} :
    ((b.run disk).run t).1.outcome = .ok report ↔
      ∃ p, (b.prepare (t.readText b.inputPath)).outcome = .ok p ∧ t.Replaceable b.outputPath ∧
        b.report p = report := by
  cases hp : (b.prepare (t.readText b.inputPath)).outcome with
  | error failure =>
    rw [(run_of_prepare_error hp).1]
    simp
  | ok p =>
    rw [(run_of_prepare_ok hp).1, ← replace_ok_iff]
    cases ((disk.replace b.outputPath p.contents).run t).1.outcome <;> simp [Except.map]

/-- So a build succeeds if its listing can be read and has a meaning, and nothing is in the way of
the table. -/
theorem exists_run_ok {text : String} (htext : t.readText b.inputPath = .ok text)
    (h : Listing.Readable (Listing.linesOf text)) (hfree : t.Replaceable b.outputPath) :
    ∃ report, ((b.run disk).run t).1.outcome = .ok report := by
  obtain ⟨p, hp⟩ := exists_render_ok b text h
  exact ⟨_, run_outcome_eq_ok_iff.mpr
    ⟨p, prepare_outcome_eq_ok_iff.mpr ⟨text, htext, hp⟩, hfree, rfl⟩⟩

/-- A build that succeeds has read a listing, made its table and put it in place. -/
theorem run_of_ok {report : Report} (h : ((b.run disk).run t).1.outcome = .ok report) :
    ∃ text p new scratch, t.readText b.inputPath = .ok text ∧ (b.render text).outcome = .ok p ∧
      t.place? b.outputPath = some new ∧ t.place? (Disk.scratchPath b.outputPath) = some scratch ∧
      ((b.run disk).run t).2.node? new = some (.file p.contents.toUTF8) ∧
      ((b.run disk).run t).2.node? scratch = none ∧
      SameBut {scratch, new} t ((b.run disk).run t).2 := by
  cases hp : (b.prepare (t.readText b.inputPath)).outcome with
  | error failure =>
    rw [(run_of_prepare_error hp).1] at h
    cases h
  | ok p =>
    obtain ⟨hdone, ht⟩ := run_of_prepare_ok hp
    obtain ⟨text, htext, hp⟩ := prepare_outcome_eq_ok_iff.mp hp
    cases hrep : ((disk.replace b.outputPath p.contents).run t).1.outcome with
    | error failure =>
      rw [hdone, hrep] at h
      cases h
    | ok =>
      obtain ⟨new, scratch, hfacts⟩ := replace_of_ok hrep
      rw [ht]
      exact ⟨text, p, new, scratch, htext, hp, hfacts⟩

/-- A build that made a table and fails changes at most the scratch file. -/
theorem run_of_write_error {text : String} {p : Product} {failure : Failure}
    (htext : t.readText b.inputPath = .ok text) (hp : (b.render text).outcome = .ok p)
    (h : ((b.run disk).run t).1.outcome = .error failure) :
    SameBut (t.places (Disk.scratchPath b.outputPath)) t ((b.run disk).run t).2 := by
  obtain ⟨hdone, ht⟩ := run_of_prepare_ok (prepare_outcome_eq_ok_iff.mpr ⟨text, htext, hp⟩)
  rw [ht]
  cases hrep : ((disk.replace b.outputPath p.contents).run t).1.outcome with
  | error failure' => exact replace_of_error hrep
  | ok =>
    rw [hdone, hrep] at h
    cases h

/-- However a build ends, directories stay. -/
theorem directory_iff_run (b : Build) (t : FileTree) (names : List String) :
    ((b.run disk).run t).2.node? names = some .directory ↔ t.node? names = some .directory := by
  cases h : ((b.run disk).run t).1.outcome with
  | ok report =>
    obtain ⟨_, _, _, _, -, -, -, -, -, -, hs⟩ := run_of_ok h
    exact hs.directory_iff names
  | error failure =>
    cases hp : (b.prepare (t.readText b.inputPath)).outcome with
    | error failure' => rw [(run_of_prepare_error hp).2]
    | ok p =>
      obtain ⟨text, htext, hp⟩ := prepare_outcome_eq_ok_iff.mp hp
      exact (run_of_write_error htext hp h).directory_iff names

/-- A file with another name than the table and its scratch file stays as it was. -/
private theorem node?_eq_of_endsIn {t' : FileTree} {new scratch : List String}
    (hnew : t.place? b.outputPath = some new)
    (hscratch : t.place? (Disk.scratchPath b.outputPath) = some scratch)
    (hs : SameBut {scratch, new} t t') {path : String} {names : List String}
    (hp : t.place? path = some names) {word : List Char} (hw : Route.EndsIn path.toList word)
    (hne : word ≠ (b.property.tableFile b.language).toList ∧
      word ≠ (b.property.tableFile b.language).toList ++ ".tmp".toList) :
      t'.node? names = t.node? names := by
  refine hs.node?_eq names ?_
  rw [Set.mem_insert_iff, Set.mem_singleton_iff, not_or]
  exact ⟨ne_of_endsIn hp hscratch hw b.endsIn_scratchPath hne.2,
    ne_of_endsIn hp hnew hw b.endsIn_outputPath hne.1⟩

/-- A build touches the files on full success only.  If the listing cannot be read, or has no
meaning, the build fails and the tree is the very same.  If the build succeeds, the table holds the
text that was made of the listing, there is no scratch file, and every other entry is as it was,
among them the listing and all other tables.  If the table cannot be written, all entries but the
scratch file are as they were, the old table included.  Directories are neither made nor removed. -/
theorem run_changes_only_table (b : Build) (t : FileTree) :
    let done := ((b.run disk).run t).1.outcome
    let t' := ((b.run disk).run t).2
    (∀ fault, t.readText b.inputPath = .error fault →
      done = .error (.inaccessible b.inputPath fault) ∧ t' = t) ∧
    (∀ text failure, t.readText b.inputPath = .ok text →
      (Listing.read text).outcome = .error failure →
      done = .error failure ∧ t' = t) ∧
    (∀ report, done = .ok report → ∃ text p,
      t.readText b.inputPath = .ok text ∧ (b.render text).outcome = .ok p ∧
      t'.read b.outputPath = .ok p.contents.toUTF8 ∧
      t'.read (Disk.scratchPath b.outputPath) = .error .notFound ∧
      (∀ names, t.place? b.outputPath ≠ some names →
        t.place? (Disk.scratchPath b.outputPath) ≠ some names → t'.node? names = t.node? names) ∧
      t'.read b.inputPath = t.read b.inputPath ∧
      ∀ other : Build, (other.property, other.language) ≠ (b.property, b.language) →
        ∀ names, t.place? other.outputPath = some names → t'.node? names = t.node? names) ∧
    (∀ text p failure, t.readText b.inputPath = .ok text → (b.render text).outcome = .ok p →
      done = .error failure →
      (∀ names, t.place? (Disk.scratchPath b.outputPath) ≠ some names →
        t'.node? names = t.node? names) ∧
      ∀ names, t.place? b.outputPath = some names → t'.node? names = t.node? names) ∧
    ∀ names, t'.node? names = some .directory ↔ t.node? names = some .directory := by
  intro done t'
  refine ⟨?_, ?_, ?_, ?_, b.directory_iff_run t⟩
  · intro fault hfault
    exact run_of_prepare_error (by rw [hfault, prepare_error_outcome])
  · intro text failure htext hread
    refine run_of_prepare_error ?_
    rw [htext, prepare_ok_outcome, render_outcome_eq_error_iff.mpr hread]
  · intro report h
    obtain ⟨text, p, new, scratch, htext, hp, hnew, hscratch, hfile, hgone, hs⟩ := run_of_ok h
    obtain ⟨listing, hlisting⟩ := exists_place?_of_readText htext
    refine ⟨text, p, htext, hp, ?_, ?_, ?_, ?_, ?_⟩
    · rw [read_of_place? ((hs.place?_eq _).trans hnew), hfile]
    · rw [read_of_place? ((hs.place?_eq _).trans hscratch), hgone]
    · intro names hn hn'
      refine hs.node?_eq names ?_
      rintro (rfl | rfl)
      · exact hn' hscratch
      · exact hn hnew
    · rw [read_of_place? ((hs.place?_eq _).trans hlisting), read_of_place? hlisting,
        node?_eq_of_endsIn hnew hscratch hs hlisting b.endsIn_inputPath (toList_listingFile_ne ..)]
    · intro other hother names hn
      exact node?_eq_of_endsIn hnew hscratch hs hn other.endsIn_outputPath
        (toList_tableFile_ne _ _ _ _ hother)
  · intro text p failure htext hp h
    have hs := run_of_write_error htext hp h
    refine ⟨hs.node?_eq, fun names hn ↦ hs.node?_eq names fun hscratch ↦ ?_⟩
    exact ne_of_place?_scratchPath hn hscratch rfl

/-- A working directory that holds a listing. -/
def withListing (text : String) : FileTree := fresh.setFile [""] "XID_START.txt" text.toUTF8

/-- A build without a listing, one with a listing that has no meaning, one that succeeds, and one
with a directory in the place of its table. -/
theorem run_changes_only_table_samples :
    let b : Build := ⟨.xidStart, .c, ".", "."⟩
    let blocked := (withListing "0041\n").addDirectory [""] "XID_START.c"
    ((b.run disk).run fresh).2 = fresh ∧
    (((b.run disk).run (withListing "zz\n")).1.outcome = .error (.malformed 1 (.notHex "zz")) ∧
      ((b.run disk).run (withListing "zz\n")).2 = withListing "zz\n") ∧
    (∃ p, (b.render "0041\n").outcome = .ok p ∧
      ((b.run disk).run (withListing "0041\n")).2.read "./XID_START.c" = .ok p.contents.toUTF8) ∧
    ∃ failure, ((b.run disk).run blocked).1.outcome = .error failure ∧
      ((b.run disk).run blocked).2.node? ["", "XID_START.txt"]
        = blocked.node? ["", "XID_START.txt"] := by
  intro b blocked
  have hout : b.outputPath = "./XID_START.c" := by decide
  have htext : (withListing "0041\n").readText b.inputPath = .ok "0041\n" := by decide
  have hblocked : blocked.readText b.inputPath = .ok "0041\n" := by decide
  obtain ⟨p, hp⟩ := exists_render_ok b "0041\n" (by decide)
  refine ⟨?_, ?_, ?_, ?_⟩
  · exact ((run_changes_only_table b fresh).1 .notFound (by decide)).2
  · exact (run_changes_only_table b (withListing "zz\n")).2.1 "zz\n" _ (by decide) (by decide)
  · have hnew : (withListing "0041\n").place? b.outputPath = some ["", "XID_START.c"] := by decide
    have hscratch : (withListing "0041\n").place? (Disk.scratchPath b.outputPath)
        = some ["", "XID_START.c.tmp"] := by decide
    have hrep : ((disk.replace b.outputPath p.contents).run (withListing "0041\n")).1.outcome
        = .ok () :=
      exists_replace_ok hnew hscratch (by decide) (by decide)
    have hdone := (run_of_prepare_ok (prepare_outcome_eq_ok_iff.mpr ⟨_, htext, hp⟩)).1
    rw [hrep] at hdone
    obtain ⟨text, q, htext', hq, hread, -⟩ :=
      (run_changes_only_table b (withListing "0041\n")).2.2.1 _ hdone
    obtain rfl := Except.ok.inj (htext.symm.trans htext')
    exact ⟨q, hq, hout ▸ hread⟩
  · have hnew : blocked.place? b.outputPath = some ["", "XID_START.c"] := by decide
    have hdir : blocked.node? ["", "XID_START.c"] = some .directory := by decide
    have hscratch : blocked.place? (Disk.scratchPath b.outputPath)
        ≠ some ["", "XID_START.txt"] := by decide
    cases hdone : ((b.run disk).run blocked).1.outcome with
    | ok report =>
      -- A table in place of the directory would be no directory.
      obtain ⟨_, _, new, _, -, -, hnew', -, hfile, -⟩ := run_of_ok hdone
      obtain rfl := Option.some.inj (hnew.symm.trans hnew')
      rw [(directory_iff_run b blocked _).mpr hdir] at hfile
      cases hfile
    | error failure =>
      obtain ⟨hsame, -⟩ := (run_changes_only_table b blocked).2.2.2.1 _ p failure hblocked hp hdone
      exact ⟨failure, rfl, hsame _ hscratch⟩

end Build

end PropertyTable
