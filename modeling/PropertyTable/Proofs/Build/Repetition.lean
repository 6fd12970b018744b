import PropertyTable.Proofs.Build.Commutation

/-!
# Builds that run again

A replacement depends on what stands in the place of its scratch file only if that is a directory,
and it never leaves a file there.  So the same replacement once more, after one that succeeded or
failed at any step, goes the same way and finds nothing left to change; and a build that runs again
reads the same listing.
-/

namespace PropertyTable

namespace FileTree

variable {t t' u : FileTree} {path contents : String}

/-! ## The steps of a replacement -/

/-- Trees that may differ in some places are equal if they do not differ there. -/
theorem SameBut.eq_of_node?_eq {changed : Set (List String)} (hs : SameBut changed t t')
    (h : ∀ names ∈ changed, t'.node? names = t.node? names) : t' = t := by
  apply ext_node? hs.here_eq
  intro names
  by_cases hn : names ∈ changed
  · exact h names hn
  · exact hs.node?_eq names hn

/-- Writing a file gives the same tree, whatever file was in its place before. -/
theorem SameBut.write_eq_ok {bytes : ByteArray} (hs : SameBut (t.places path) t t')
    (h : t.write path bytes = .ok u) : t'.write path bytes = .ok u := by
  obtain ⟨names, hp, hfile, hu⟩ := FileTree.write_eq_ok h
  rw [← singleton_eq_places hp] at hs
  have hp' : t'.place? path = some names := (hs.place?_eq path).trans hp
  have hne : t'.node? names ≠ some .directory := by
    rw [ne_eq, hs.directory_iff, ← hu.directory_iff, hfile]
    exact nofun
  obtain ⟨u', hw⟩ := exists_write_eq_ok hp' hne bytes
  obtain ⟨names', hp'', hfile', hu'⟩ := FileTree.write_eq_ok hw
  obtain rfl := Option.some.inj (hp'.symm.trans hp'')
  have hsame : SameBut {names} u u' := (hu.symm.trans hs).trans hu'
  rw [hw, hsame.eq_of_node?_eq]
  rintro _ rfl
  rw [hfile, hfile']

/-- Where no file can be written, there is none to remove. -/
theorem discard_of_write_error {bytes : ByteArray} {fault : FileFault}
    (h : t.write path bytes = .error fault) : t.discard path = t := by
  cases hr : t.remove path with
  | error fault' => exact discard_of_error hr
  | ok u =>
    obtain ⟨names, hp, hgone, hs⟩ := remove_eq_ok hr
    have hne : t.node? names ≠ some .directory := by
      rw [ne_eq, ← hs.directory_iff, hgone]
      exact nofun
    obtain ⟨u', hw⟩ := exists_write_eq_ok hp hne bytes
    rw [h] at hw
    cases hw

/-- Once the scratch file is written, nothing but the tree with it matters for a replacement. -/
theorem run_replace_congr (h : t.write (Disk.scratchPath path) contents.toUTF8 = .ok u)
    (h' : t'.write (Disk.scratchPath path) contents.toUTF8 = .ok u) :
    (disk.replace path contents).run t' = (disk.replace path contents).run t := by
  have hw : (disk.write (Disk.scratchPath path) contents.toUTF8).run t = (.ok (), u) :=
    run_update_of_ok h
  have hw' : (disk.write (Disk.scratchPath path) contents.toUTF8).run t' = (.ok (), u) :=
    run_update_of_ok h'
  rw [Disk.replace, StateT.run_bind, StateT.run_bind, hw, hw']

/-! ## The same replacement again -/

/-- A replacement that succeeds tells the journal what it has written, and nothing else. -/
theorem run_replace_fst_of_ok (h : ((disk.replace path contents).run t).1.outcome = .ok ()) :
    ((disk.replace path contents).run t).1 = .note (.written path contents.utf8ByteSize) := by
  obtain ⟨u, t', -, -, hrun⟩ | ⟨u, fault, -, -, hrun⟩ | ⟨fault, -, hrun⟩ :=
    replace_cases t path contents
  · rw [hrun]
  · rw [hrun] at h
    cases h
  · rw [hrun] at h
    cases h

/-- A replacement that succeeded finds its file in place and no scratch file, and leaves both so. -/
theorem run_replace_of_ok (h : ((disk.replace path contents).run t).1.outcome = .ok ()) :
    (disk.replace path contents).run ((disk.replace path contents).run t).2
      = (disk.replace path contents).run t := by
  obtain ⟨new, scratch, hnew, hscratch, hfile, hgone, hs⟩ := replace_of_ok h
  have h' : ((disk.replace path contents).run ((disk.replace path contents).run t).2).1.outcome
      = .ok () :=
    replace_ok_iff.mpr ((hs.replaceable_iff path).mpr (replace_ok_iff.mp h))
  obtain ⟨new', scratch', hnew', hscratch', hfile', hgone', hs'⟩ := replace_of_ok h'
  obtain rfl := Option.some.inj (((hs.place?_eq _).trans hnew).symm.trans hnew')
  obtain rfl := Option.some.inj (((hs.place?_eq _).trans hscratch).symm.trans hscratch')
  apply Prod.ext
  · rw [run_replace_fst_of_ok h', run_replace_fst_of_ok h]
  · apply hs'.eq_of_node?_eq
    rintro names (rfl | rfl)
    · rw [hgone, hgone']
    · rw [hfile, hfile']

/-- A replacement that is done again ends as it did before, and leaves the tree as it was left. -/
theorem run_replace_again (t : FileTree) (path contents : String) :
    (disk.replace path contents).run ((disk.replace path contents).run t).2
      = (disk.replace path contents).run t := by
  obtain ⟨u, t', -, -, hrun⟩ | ⟨u, fault, hw, -, hrun⟩ | ⟨fault, hw, hrun⟩ :=
    replace_cases t path contents
  · apply run_replace_of_ok
    rw [hrun]
    rfl
  · -- The scratch file was removed, but what is written in its place is the same file again.
    have h : ((disk.replace path contents).run t).1.outcome
        = .error (.inaccessible path fault) := by
      rw [hrun]
      rfl
    exact run_replace_congr hw ((replace_of_error h).write_eq_ok hw)
  · have hsame : ((disk.replace path contents).run t).2 = t := by
      rw [hrun]
      exact discard_of_write_error hw
    rw [hsame]

end FileTree

/-! ## The same build again -/

namespace Build

open FileTree

variable {b : Build} {t : FileTree}

/-- A build whose table could be made does the rest by saving it. -/
theorem run_eq_save {p : Product} (hp : (b.prepare (t.readText b.inputPath)).outcome = .ok p) :
    (b.run disk).run t
      = (Logged.after (b.prepare (t.readText b.inputPath)).events <$> b.save p).run t := by
  rw [run_eq, Logged.andThen, hp]

theorem run_save_again (b : Build) (p : Product) (t : FileTree) :
    (b.save p).run ((disk.replace b.outputPath p.contents).run t).2 = (b.save p).run t := by
  rw [save, StateT.run_bind, StateT.run_bind, run_replace_again]

/-- A build that runs again changes nothing and ends as it did before.  Whatever was in the tree
when it ran first, the tree after the second run is the tree after the first one, and both runs give
the same report or fail for the same reason, with the same journal. -/
theorem run_again (b : Build) (t : FileTree) :
    (b.run disk).run ((b.run disk).run t).2 = (b.run disk).run t := by
  cases hp : (b.prepare (t.readText b.inputPath)).outcome with
  | error failure => rw [(run_of_prepare_error hp).2]
  | ok p =>
    -- The listing is not touched, so that the same table is made again.
    obtain ⟨text, htext, -⟩ := prepare_outcome_eq_ok_iff.mp hp
    have htext' := (b.sameBut_run t).readText_eq (listing_notMem_touched b b t) htext
    have hread := htext'.trans htext.symm
    have hp' : (b.prepare (((b.run disk).run t).2.readText b.inputPath)).outcome = .ok p := by
      rw [hread, hp]
    calc (b.run disk).run ((b.run disk).run t).2
      _ = (Logged.after (b.prepare (t.readText b.inputPath)).events <$> b.save p).run
            ((b.run disk).run t).2 := by rw [run_eq_save hp', hread]
      _ = (Logged.after (b.prepare (t.readText b.inputPath)).events <$> b.save p).run t := by
        rw [(run_of_prepare_ok hp).2, StateT.run_map, StateT.run_map, run_save_again]
      _ = (b.run disk).run t := (run_eq_save hp).symm

end Build

end PropertyTable
