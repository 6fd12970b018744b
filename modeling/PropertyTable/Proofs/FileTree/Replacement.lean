import PropertyTable.Proofs.FileTree.Paths

/-!
# Replacing a file

A file is replaced in two steps, through a scratch file beside it.  A replacement that succeeds
changes the file and leaves no scratch file; one that fails changes nothing, a scratch file apart.
-/

namespace PropertyTable.FileTree

variable {t u t' : FileTree} {path contents : String}

/-! ## The steps -/

theorem run_update_of_ok {change : FileTree → Except FileFault FileTree} (h : change t = .ok t') :
    (update change).run t = (.ok (), t') := by
  simp only [StateT.run, update, h]

theorem run_update_of_error {change : FileTree → Except FileFault FileTree} {fault : FileFault}
    (h : change t = .error fault) : (update change).run t = (.error fault, t) := by
  simp only [StateT.run, update, h]

/-- The tree without the file at a path, if it can be removed. -/
def discard (t : FileTree) (path : String) : FileTree := ((disk.remove path).run t).2

theorem discard_of_ok (h : t.remove path = .ok t') : t.discard path = t' :=
  congrArg Prod.snd (run_update_of_ok h)

theorem discard_of_error {fault : FileFault} (h : t.remove path = .error fault) :
    t.discard path = t :=
  congrArg Prod.snd (run_update_of_error h)

/-- What a replacement can do: both steps, or only the first one, or none; if not both, it cleans
up. -/
theorem replace_cases (t : FileTree) (path contents : String) :
    (∃ u t', t.write (Disk.scratchPath path) contents.toUTF8 = .ok u ∧
      u.rename (Disk.scratchPath path) path = .ok t' ∧
      (disk.replace path contents).run t = (.note (.written path contents.utf8ByteSize), t')) ∨
    (∃ u fault, t.write (Disk.scratchPath path) contents.toUTF8 = .ok u ∧
      u.rename (Disk.scratchPath path) path = .error fault ∧
      (disk.replace path contents).run t
        = (.fail (.inaccessible path fault), u.discard (Disk.scratchPath path))) ∨
    (∃ fault, t.write (Disk.scratchPath path) contents.toUTF8 = .error fault ∧
      (disk.replace path contents).run t
        = (.fail (.inaccessible (Disk.scratchPath path) fault),
          t.discard (Disk.scratchPath path))) := by
  cases hw : t.write (Disk.scratchPath path) contents.toUTF8 with
  | error fault =>
    refine .inr (.inr ⟨fault, rfl, ?_⟩)
    have hw' : (disk.write (Disk.scratchPath path) contents.toUTF8).run t = (.error fault, t) :=
      run_update_of_error hw
    rw [Disk.replace, StateT.run_bind, hw']
    rfl
  | ok u =>
    have hw' : (disk.write (Disk.scratchPath path) contents.toUTF8).run t = (.ok (), u) :=
      run_update_of_ok hw
    rw [Disk.replace, StateT.run_bind, hw']
    cases hr : u.rename (Disk.scratchPath path) path with
    | error fault =>
      refine .inr (.inl ⟨u, fault, rfl, hr, ?_⟩)
      have hr' : (disk.rename (Disk.scratchPath path) path).run u = (.error fault, u) :=
        run_update_of_error hr
      change (disk.rename (Disk.scratchPath path) path >>= _).run u = _
      rw [StateT.run_bind, hr']
      rfl
    | ok t' =>
      refine .inl ⟨u, t', rfl, hr, ?_⟩
      have hr' : (disk.rename (Disk.scratchPath path) path).run u = (.ok (), t') :=
        run_update_of_ok hr
      change (disk.rename (Disk.scratchPath path) path >>= _).run u = _
      rw [StateT.run_bind, hr']
      rfl

/-! ## Both outcomes -/

/-- The places to which a path leads: one or none. -/
def places (t : FileTree) (path : String) : Set (List String) :=
  {names | t.place? path = some names}

theorem SameBut.places_eq {changed : Set (List String)} (h : SameBut changed t t') (path : String) :
    t'.places path = t.places path := by rw [places, places, h.place?_eq]

theorem singleton_eq_places {names : List String} (h : t.place? path = some names) :
    {names} = t.places path := by
  ext other
  rw [places, h, Set.mem_singleton_iff, Set.mem_ofPred_eq, Option.some.injEq, eq_comm]

theorem sameBut_discard (t : FileTree) (path : String) :
    SameBut (t.places path) t (t.discard path) := by
  cases h : t.remove path with
  | error fault =>
    rw [discard_of_error h]
    exact .refl _ t
  | ok t' =>
    obtain ⟨names, hp, -, hs⟩ := remove_eq_ok h
    rwa [discard_of_ok h, ← singleton_eq_places hp]

/-- The scratch file of a path has a place of its own. -/
theorem ne_of_place?_scratchPath {names scratch : List String} (h : t.place? path = some names)
    (hs : t.place? (Disk.scratchPath path) = some scratch) : names ≠ scratch :=
  ne_of_place?_append (by decide) (by decide) h hs

/-- A replacement that succeeds puts the contents in place, leaves no scratch file, and changes
nothing else. -/
theorem replace_of_ok (h : ((disk.replace path contents).run t).1.outcome = .ok ()) :
    ∃ new scratch, t.place? path = some new ∧ t.place? (Disk.scratchPath path) = some scratch ∧
      ((disk.replace path contents).run t).2.node? new = some (.file contents.toUTF8) ∧
      ((disk.replace path contents).run t).2.node? scratch = none ∧
      SameBut {scratch, new} t ((disk.replace path contents).run t).2 := by
  obtain ⟨u, t', hw, hr, hrun⟩ | ⟨u, fault, -, -, hrun⟩ | ⟨fault, -, hrun⟩ :=
    replace_cases t path contents
  · obtain ⟨scratch, hp, hfile, hs⟩ := write_eq_ok hw
    obtain ⟨old, new, bytes, hold, hnew, hfile', hput, hgone, hs'⟩ := rename_eq_ok hr
    rw [hs.place?_eq] at hold hnew
    obtain rfl : scratch = old := Option.some.inj (hp.symm.trans hold)
    obtain rfl : contents.toUTF8 = bytes :=
      Node.file.inj (Option.some.inj (hfile.symm.trans hfile'))
    have hne : new ≠ scratch := ne_of_place?_scratchPath hnew hp
    rw [hrun]
    exact ⟨new, scratch, hnew, hp, hput, hgone hne.symm, (hs.mono (by simp)).trans hs'⟩
  · rw [hrun] at h
    cases h
  · rw [hrun] at h
    cases h

/-- A replacement succeeds if no directory is in its way. -/
theorem exists_replace_ok {new scratch : List String} (hnew : t.place? path = some new)
    (hscratch : t.place? (Disk.scratchPath path) = some scratch)
    (hn : t.node? new ≠ some .directory) (hs : t.node? scratch ≠ some .directory) :
    ((disk.replace path contents).run t).1.outcome = .ok () := by
  obtain ⟨u, t', -, -, hrun⟩ | ⟨u, fault, hw, hr, -⟩ | ⟨fault, hw, -⟩ :=
    replace_cases t path contents
  · rw [hrun]
    rfl
  · obtain ⟨scratch', hp, hfile, hsame⟩ := write_eq_ok hw
    obtain ⟨t', ht⟩ :=
      exists_rename_eq_ok ((hsame.place?_eq _).trans hp) ((hsame.place?_eq _).trans hnew) hfile
      (mt (hsame.directory_iff new).mp hn)
    rw [hr] at ht
    cases ht
  · obtain ⟨u, hu⟩ := exists_write_eq_ok hscratch hs contents.toUTF8
    rw [hw] at hu
    cases hu

/-- A replacement that fails changes nothing, a scratch file apart. -/
theorem replace_of_error {failure : Failure}
    (h : ((disk.replace path contents).run t).1.outcome = .error failure) :
    SameBut (t.places (Disk.scratchPath path)) t ((disk.replace path contents).run t).2 := by
  obtain ⟨u, t', -, -, hrun⟩ | ⟨u, fault, hw, -, hrun⟩ | ⟨fault, -, hrun⟩ :=
    replace_cases t path contents
  · rw [hrun] at h
    cases h
  · obtain ⟨scratch, hp, -, hs⟩ := write_eq_ok hw
    rw [singleton_eq_places hp] at hs
    have hd := sameBut_discard u (Disk.scratchPath path)
    rw [hs.places_eq] at hd
    rw [hrun]
    exact hs.trans hd
  · rw [hrun]
    exact sameBut_discard t _

/-! ## Whatever the outcome -/

/-- Nothing is in the way of a replacement: the path and that of its scratch file lead to places,
and neither of them is a directory. -/
def Replaceable (t : FileTree) (path : String) : Prop :=
  ∃ new scratch, t.place? path = some new ∧ t.place? (Disk.scratchPath path) = some scratch ∧
    t.node? new ≠ some .directory ∧ t.node? scratch ≠ some .directory

theorem replace_ok_iff :
    ((disk.replace path contents).run t).1.outcome = .ok () ↔ t.Replaceable path := by
  constructor
  · intro h
    obtain ⟨new, scratch, hnew, hscratch, hfile, hgone, hs⟩ := replace_of_ok h
    refine ⟨new, scratch, hnew, hscratch, ?_, ?_⟩
    · rw [ne_eq, ← hs.directory_iff, hfile]
      exact nofun
    · rw [ne_eq, ← hs.directory_iff, hgone]
      exact nofun
  · rintro ⟨new, scratch, hnew, hscratch, hn, hs⟩
    exact exists_replace_ok hnew hscratch hn hs

/-- Files are never in the way of a replacement. -/
theorem SameBut.replaceable_iff {changed : Set (List String)} (h : SameBut changed t t')
    (path : String) :
    t'.Replaceable path ↔ t.Replaceable path := by
  simp only [Replaceable, h.place?_eq, ne_eq, h.directory_iff]

/-- A replacement changes the file and its scratch file at most. -/
theorem sameBut_replace (t : FileTree) (path contents : String) :
    SameBut (t.places path ∪ t.places (Disk.scratchPath path)) t
      ((disk.replace path contents).run t).2 := by
  cases h : ((disk.replace path contents).run t).1.outcome with
  | ok =>
    obtain ⟨new, scratch, hnew, hscratch, -, -, hs⟩ := replace_of_ok h
    rwa [← singleton_eq_places hnew, ← singleton_eq_places hscratch, Set.union_singleton]
  | error failure => exact (replace_of_error h).mono Set.subset_union_right

/-- A replacement that fails leaves the file as it was. -/
theorem node?_replace_of_not_replaceable {new : List String} (hnew : t.place? path = some new)
    (h : ¬t.Replaceable path) :
    ((disk.replace path contents).run t).2.node? new = t.node? new := by
  cases hrep : ((disk.replace path contents).run t).1.outcome with
  | ok => exact absurd (replace_ok_iff.mp hrep) h
  | error failure =>
    apply (replace_of_error hrep).node?_eq
    intro hscratch
    exact ne_of_place?_scratchPath hnew hscratch rfl

/-- No replacement leaves a scratch file, and a directory in its place stays. -/
theorem node?_scratch_replace {scratch : List String}
    (h : t.place? (Disk.scratchPath path) = some scratch) :
    ((disk.replace path contents).run t).2.node? scratch
      = if t.node? scratch = some .directory then some .directory else none := by
  have hdir := (sameBut_replace t path contents).directory_iff scratch
  split
  · next hd => exact hdir.mpr hd
  next hd =>
  obtain ⟨u, hw⟩ := exists_write_eq_ok h hd contents.toUTF8
  obtain ⟨scratch', hp, hfile, hs⟩ := write_eq_ok hw
  obtain rfl := Option.some.inj (h.symm.trans hp)
  obtain ⟨_, _, -, -, hrun⟩ | ⟨u', fault, hw', -, hrun⟩ | ⟨fault, hw', -⟩ :=
    replace_cases t path contents
  · have hok : ((disk.replace path contents).run t).1.outcome = .ok () := by
      rw [hrun]
      rfl
    obtain ⟨_, scratch', -, hp', -, hgone, -⟩ := replace_of_ok hok
    obtain rfl := Option.some.inj (h.symm.trans hp')
    exact hgone
  · -- The scratch file was written, so that it can be removed.
    obtain rfl := Except.ok.inj (hw.symm.trans hw')
    obtain ⟨t', ht⟩ := exists_remove_eq_ok ((hs.place?_eq _).trans h) hfile
    obtain ⟨gone, hp', hgone, -⟩ := remove_eq_ok ht
    obtain rfl := Option.some.inj (((hs.place?_eq _).trans h).symm.trans hp')
    rw [hrun]
    show (u.discard (Disk.scratchPath path)).node? scratch = none
    rwa [discard_of_ok ht]
  · rw [hw] at hw'
    cases hw'

/-! ## All or nothing -/

theorem scratchPath_ne (path : String) : Disk.scratchPath path ≠ path := by
  intro h
  have hl := congrArg (fun p ↦ p.toList.length) h
  simp [Disk.scratchPath] at hl

/-- The failure of a replacement names the scratch file if that could not be written. -/
theorem replace_scratch_error_iff {fault : FileFault} :
    ((disk.replace path contents).run t).1.outcome
        = .error (.inaccessible (Disk.scratchPath path) fault) ↔
      t.write (Disk.scratchPath path) contents.toUTF8 = .error fault := by
  obtain ⟨u, t', hw, -, hrun⟩ | ⟨u, fault', hw, -, hrun⟩ | ⟨fault', hw, hrun⟩ :=
    replace_cases t path contents
  · rw [hrun, hw]
    simp [Logged.note]
  · rw [hrun, hw]
    simp [Logged.fail, (scratchPath_ne path).symm]
  · rw [hrun, hw]
    simp [Logged.fail]

/-- It names the file itself if the scratch file was written and could not be moved. -/
theorem replace_target_error_iff {fault : FileFault} :
    ((disk.replace path contents).run t).1.outcome = .error (.inaccessible path fault) ↔
      ∃ u, t.write (Disk.scratchPath path) contents.toUTF8 = .ok u ∧
        u.rename (Disk.scratchPath path) path = .error fault := by
  obtain ⟨u, t', hw, hr, hrun⟩ | ⟨u, fault', hw, hr, hrun⟩ | ⟨fault', hw, hrun⟩ :=
    replace_cases t path contents
  · rw [hrun, hw]
    simp [hr, Logged.note]
  · rw [hrun, hw]
    simp [hr, Logged.fail]
  · rw [hrun, hw]
    simp [Logged.fail, scratchPath_ne path]

/-- A replacement that fails tells which of its steps failed. -/
theorem exists_fault_of_replace_error {failure : Failure}
    (h : ((disk.replace path contents).run t).1.outcome = .error failure) :
    ∃ fault, failure = .inaccessible (Disk.scratchPath path) fault ∨
      failure = .inaccessible path fault := by
  obtain ⟨u, t', -, -, hrun⟩ | ⟨u, fault, -, -, hrun⟩ | ⟨fault, -, hrun⟩ :=
    replace_cases t path contents
  · rw [hrun] at h
    cases h
  · rw [hrun] at h
    exact ⟨fault, .inr (Except.error.inj h).symm⟩
  · rw [hrun] at h
    exact ⟨fault, .inl (Except.error.inj h).symm⟩

/-- However a replacement ends, there is no scratch file to read. -/
theorem read_scratch_replace_ne_ok (t : FileTree) (path contents : String) (bytes : ByteArray) :
    ((disk.replace path contents).run t).2.read (Disk.scratchPath path) ≠ .ok bytes := by
  intro h
  obtain ⟨scratch, hp, hfile⟩ := exists_place?_of_read h
  rw [(sameBut_replace t path contents).place?_eq] at hp
  rw [node?_scratch_replace hp] at hfile
  split at hfile <;> cases hfile

/-- A file is replaced in one step or not at all.  If a replacement succeeds, the path leads to the
new contents, there is no scratch file, and every other entry is as it was.  If it fails, every
entry but the scratch file is as it was, the old file among them, and there is no scratch file; a
directory in its place stays with all that lies in it.  The failure names the scratch file if that
could not be written, and the path if the scratch file could not be moved.  In between the two
steps, only the scratch file is another. -/
theorem replace_all_or_nothing (t : FileTree) (path contents : String) :
    let scratch := Disk.scratchPath path
    let done := ((disk.replace path contents).run t).1.outcome
    let t' := ((disk.replace path contents).run t).2
    (done = .ok () →
      t'.read path = .ok contents.toUTF8 ∧ t'.read scratch = .error .notFound ∧
      ∀ names, t.place? path ≠ some names → t.place? scratch ≠ some names →
        t'.node? names = t.node? names) ∧
    (∀ failure, done = .error failure →
      (∀ names, t.place? scratch ≠ some names → t'.node? names = t.node? names) ∧
      (∀ names, t.place? path = some names → t'.node? names = t.node? names) ∧
      (∀ bytes, t'.read scratch ≠ .ok bytes) ∧
      (∀ dir, t.place? scratch = some dir → t.node? dir = some .directory →
        ∀ below, t'.node? (dir ++ below) = t.node? (dir ++ below)) ∧
      ∃ fault, failure = .inaccessible scratch fault ∨ failure = .inaccessible path fault) ∧
    (∀ fault, done = .error (.inaccessible scratch fault) ↔
      t.write scratch contents.toUTF8 = .error fault) ∧
    (∀ fault, done = .error (.inaccessible path fault) ↔
      ∃ u, t.write scratch contents.toUTF8 = .ok u ∧ u.rename scratch path = .error fault) ∧
    ∀ u, t.write scratch contents.toUTF8 = .ok u →
      ∀ names, t.place? scratch ≠ some names → u.node? names = t.node? names := by
  intro scratch done t'
  refine ⟨?_, ?_, fun _ ↦ replace_scratch_error_iff, fun _ ↦ replace_target_error_iff, ?_⟩
  · intro h
    obtain ⟨new, old, hnew, hold, hfile, hgone, hs⟩ := replace_of_ok h
    refine ⟨?_, ?_, fun names hn hn' ↦ hs.node?_eq names ?_⟩
    · rw [read_of_place? ((hs.place?_eq _).trans hnew), hfile]
    · rw [read_of_place? ((hs.place?_eq _).trans hold), hgone]
    · rintro (rfl | rfl)
      · exact hn' hold
      · exact hn hnew
  · intro failure h
    have hs := replace_of_error h
    refine ⟨hs.node?_eq, ?_, read_scratch_replace_ne_ok t path contents, ?_,
      exists_fault_of_replace_error h⟩
    · intro names hn
      exact hs.node?_eq names fun hscratch ↦ ne_of_place?_scratchPath hn hscratch rfl
    · intro dir hp hdir below
      -- What lies below the directory has more names than the place of the scratch file.
      by_cases hb : below = []
      · rw [hb, List.append_nil, hdir]
        exact (hs.directory_iff dir).mpr hdir
      · refine hs.node?_eq _ fun hscratch ↦ hb ?_
        exact List.append_right_eq_self.mp (Option.some.inj (hscratch.symm.trans hp))
  · intro u hw names hn
    obtain ⟨written, hp, -, hs⟩ := write_eq_ok hw
    refine hs.node?_eq names ?_
    rintro rfl
    exact hn hp

/-- A replacement over a scratch file that was left behind, one with a directory that is not empty
in the place of its scratch file, and one with a directory in the place of its file. -/
theorem replace_all_or_nothing_samples :
    let stale := fresh.setFile [""] "a.tmp" "old".toUTF8
    let blocked := (fresh.addDirectory [""] "a.tmp").setFile ["", "a.tmp"] "b" "old".toUTF8
    let occupied := fresh.addDirectory [""] "a"
    (((disk.replace "a" "new").run stale).2.read "a" = .ok "new".toUTF8 ∧
      ((disk.replace "a" "new").run stale).2.read "a.tmp" = .error .notFound) ∧
    (((disk.replace "a" "new").run blocked).1.outcome
        = .error (.inaccessible "a.tmp" .isDirectory) ∧
      ((disk.replace "a" "new").run blocked).2.node? ["", "a.tmp", "b"]
        = some (.file "old".toUTF8)) ∧
    (((disk.replace "a" "new").run occupied).1.outcome = .error (.inaccessible "a" .isDirectory) ∧
      ∀ bytes, ((disk.replace "a" "new").run occupied).2.read "a.tmp" ≠ .ok bytes) := by
  intro stale blocked occupied
  have hscratch : Disk.scratchPath "a" = "a.tmp" := by decide
  refine ⟨?_, ?_, ?_⟩
  · have hnew : stale.place? "a" = some ["", "a"] := by decide
    have hold : stale.place? (Disk.scratchPath "a") = some ["", "a.tmp"] := by decide
    have hdone : ((disk.replace "a" "new").run stale).1.outcome = .ok () :=
      exists_replace_ok hnew hold (by decide) (by decide)
    obtain ⟨hread, hgone, -⟩ := (replace_all_or_nothing stale "a" "new").1 hdone
    exact ⟨hread, hscratch ▸ hgone⟩
  · have hw : blocked.write (Disk.scratchPath "a") "new".toUTF8 = .error .isDirectory := by rfl
    obtain ⟨-, herror, hiff, -, -⟩ := replace_all_or_nothing blocked "a" "new"
    have hdone := (hiff .isDirectory).mpr hw
    obtain ⟨-, -, -, hbelow, -⟩ := herror _ hdone
    have hb := hbelow ["", "a.tmp"] (by decide) (by decide) ["b"]
    have hfile : blocked.node? ["", "a.tmp", "b"] = some (.file "old".toUTF8) := by decide
    exact ⟨hscratch ▸ hdone, hb.trans hfile⟩
  · obtain ⟨-, herror, -, hiff, -⟩ := replace_all_or_nothing occupied "a" "new"
    have hdone := (hiff .isDirectory).mpr ⟨_, rfl, by rfl⟩
    obtain ⟨-, -, hread, -⟩ := herror _ hdone
    exact ⟨hdone, hscratch ▸ hread⟩

end PropertyTable.FileTree
