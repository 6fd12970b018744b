import Mathlib.Data.Set.Insert
import PropertyTable.FileTree.Operations

/-!
# What file operations leave alone

A path leads to one place of the tree at most, and an operation on the path changes that place and
nothing else.  No operation of a disk makes or removes a directory, so that after any of them every
path that could be followed leads where it led before.
-/

namespace PropertyTable.FileTree

variable {t t' t'' : FileTree}

/-! ## Trees that differ in few places -/

/-- Two trees have the same directories, and the same entries outside of the given places. -/
structure SameBut (changed : Set (List String)) (t t' : FileTree) : Prop where
  here_eq : t'.here = t.here
  directory_iff : ∀ names, t'.node? names = some .directory ↔ t.node? names = some .directory
  node?_eq : ∀ names ∉ changed, t'.node? names = t.node? names

namespace SameBut

variable {as bs : Set (List String)}

theorem refl (as : Set (List String)) (t : FileTree) : SameBut as t t :=
  ⟨rfl, fun _ ↦ .rfl, fun _ _ ↦ rfl⟩

theorem mono (h : SameBut as t t') (hs : as ⊆ bs) : SameBut bs t t' :=
  ⟨h.here_eq, h.directory_iff, fun names hn ↦ h.node?_eq names fun ha ↦ hn (hs ha)⟩

theorem symm (h : SameBut as t t') : SameBut as t' t :=
  ⟨h.here_eq.symm, fun names ↦ (h.directory_iff names).symm,
    fun names hn ↦ (h.node?_eq names hn).symm⟩

theorem trans (h : SameBut as t t') (h' : SameBut as t' t'') : SameBut as t t'' where
  here_eq := h'.here_eq.trans h.here_eq
  directory_iff names := (h'.directory_iff names).trans (h.directory_iff names)
  node?_eq names hn := (h'.node?_eq names hn).trans (h.node?_eq names hn)

end SameBut

theorem sameBut_setFile {dir : List String} {name : String} (bytes : ByteArray)
    (hdir : t.node? dir = some .directory) (hname : t.node? (dir ++ [name]) ≠ some .directory) :
    SameBut {dir ++ [name]} t (t.setFile dir name bytes) where
  here_eq := here_setFile ..
  directory_iff names := by
    rw [node?_setFile bytes hdir hname]
    split
    · next h => simp [h, hname]
    · rfl
  node?_eq names hn := by
    rw [Set.mem_singleton_iff] at hn
    rw [node?_setFile bytes hdir hname, if_neg hn]

theorem sameBut_eraseFile {gone : List String} (h : t.node? gone ≠ some .directory) :
    SameBut {gone} t (t.eraseFile gone) where
  here_eq := here_eraseFile ..
  directory_iff names := by
    rw [node?_eraseFile h]
    split
    · next hn => simp [hn, h]
    · rfl
  node?_eq names hn := by
    rw [Set.mem_singleton_iff] at hn
    rw [node?_eraseFile h, if_neg hn]

/-- A file is moved by erasing it at its old place and setting it at the new one. -/
theorem sameBut_move {old dir : List String} {name : String} (bytes : ByteArray)
    (hold : t.node? old ≠ some .directory) (hdir : t.node? dir = some .directory)
    (hname : t.node? (dir ++ [name]) ≠ some .directory) :
    SameBut {old, dir ++ [name]} t ((t.eraseFile old).setFile dir name bytes) ∧
      ((t.eraseFile old).setFile dir name bytes).node? (dir ++ [name]) = some (.file bytes) ∧
      (old ≠ dir ++ [name] → ((t.eraseFile old).setFile dir name bytes).node? old = none) := by
  have he := sameBut_eraseFile hold
  have hdir' := (he.directory_iff dir).mpr hdir
  have hname' := mt (he.directory_iff (dir ++ [name])).mp hname
  have hs := sameBut_setFile bytes hdir' hname'
  refine ⟨(he.mono (by simp)).trans (hs.mono (by simp)), ?_, fun hne ↦ ?_⟩
  · rw [node?_setFile bytes hdir' hname', if_pos rfl]
  · rw [node?_setFile bytes hdir' hname', if_neg hne, node?_eraseFile hold, if_pos rfl]

/-! ## Following paths -/

/-- Two steps succeed if the first one does and then the second one. -/
theorem bind_eq_ok_iff {ε α β : Type} {x : Except ε α} {f : α → Except ε β} {b : β} :
    x >>= f = .ok b ↔ ∃ a, x = .ok a ∧ f a = .ok b := by
  cases x <;> simp [bind, Except.bind]

theorem node?_dropLast {dir : List String} (h : t.node? dir = some .directory) :
    t.node? dir.dropLast = some .directory := by
  rcases List.eq_nil_or_concat dir with rfl | ⟨above, name, rfl⟩
  · exact t.root
  · rw [List.concat_eq_append] at h ⊢
    rw [List.dropLast_concat]
    exact t.nested above name
      (Std.ExtTreeMap.mem_iff_isSome_getElem?.mpr (Option.isSome_of_eq_some h))

/-- What a step can do: stay, go up, or go down into a directory. -/
theorem step_eq_ok_iff {dir dir' : List String} {name : String} :
    t.step dir name = .ok dir' ↔
      name = "." ∧ dir' = dir ∨ name = ".." ∧ dir' = dir.dropLast ∨
      (name ≠ "." ∧ name ≠ ".." ∧ name.utf8ByteSize ≤ Route.nameLimit ∧
        t.node? (dir ++ [name]) = some .directory ∧ dir' = dir ++ [name]) := by
  unfold step
  by_cases hp : name = "."
  · simp [hp, eq_comm]
  by_cases hpp : name = ".."
  · simp [hpp, eq_comm]
  by_cases hl : Route.nameLimit < name.utf8ByteSize
  · simp [hp, hpp, hl]
  cases t.node? (dir ++ [name]) with
  | none => simp [hp, hpp, hl]
  | some node => cases node <;> simp [hp, hpp, hl, Nat.not_lt.mp hl, eq_comm]

/-- A step from a directory leads to a directory. -/
theorem node?_of_step {dir dir' : List String} {name : String}
    (hdir : t.node? dir = some .directory) (h : t.step dir name = .ok dir') :
    t.node? dir' = some .directory := by
  obtain ⟨-, rfl⟩ | ⟨-, rfl⟩ | ⟨-, -, -, hd, rfl⟩ := step_eq_ok_iff.mp h
  · exact hdir
  · exact node?_dropLast hdir
  · exact hd

theorem walk_cons {dir : List String} {name : String} {steps : List String} :
    t.walk dir (name :: steps) = t.step dir name >>= fun dir ↦ t.walk dir steps := rfl

theorem node?_of_walk {steps dir dir' : List String} (hdir : t.node? dir = some .directory)
    (h : t.walk dir steps = .ok dir') : t.node? dir' = some .directory := by
  induction steps generalizing dir with
  | nil => exact Except.ok.inj h ▸ hdir
  | cons name steps ih =>
    rw [walk_cons, bind_eq_ok_iff] at h
    obtain ⟨next, hn, h⟩ := h
    exact ih (node?_of_step hdir hn) h

theorem locate_eq_ok_iff {path : String} {spot : Spot} :
    t.locate path = .ok spot ↔ ∃ route, Route.ofPath path = .ok route ∧
      ∃ dir, t.walk (t.start route) route.steps.dropLast = .ok dir ∧
        ⟨dir, route.steps.getLast?.filter fun name ↦ name ≠ "." ∧ name ≠ "..", route.slash⟩
          = spot := by
  simp only [locate, bind_eq_ok_iff, pure, Except.pure, Except.ok.injEq]

theorem node?_start (t : FileTree) (route : Route) : t.node? (t.start route) = some .directory := by
  unfold start
  split
  · exact t.root
  · exact t.working

/-- A path leads to a name in a directory. -/
theorem node?_dir_of_locate {path : String} {spot : Spot} (h : t.locate path = .ok spot) :
    t.node? spot.dir = some .directory := by
  obtain ⟨route, -, dir, hw, rfl⟩ := locate_eq_ok_iff.mp h
  exact node?_of_walk (t.node?_start route) hw

/-- What was a directory is one still, and paths begin where they began. -/
structure KeepsDirectories (t t' : FileTree) : Prop where
  here_eq : t'.here = t.here
  directory : ∀ {names}, t.node? names = some .directory → t'.node? names = some .directory

theorem SameBut.keepsDirectories {changed : Set (List String)} (h : SameBut changed t t') :
    KeepsDirectories t t' :=
  ⟨h.here_eq, (h.directory_iff _).mpr⟩

namespace KeepsDirectories

theorem start_eq (h : KeepsDirectories t t') (route : Route) : t'.start route = t.start route := by
  rw [start, start, h.here_eq]

/-- Only directories matter for a step that can be taken. -/
theorem step_eq_ok (h : KeepsDirectories t t') {dir dir' : List String} {name : String}
    (hs : t.step dir name = .ok dir') : t'.step dir name = .ok dir' := by
  rw [step_eq_ok_iff] at hs ⊢
  exact hs.imp_right (.imp_right fun ⟨hp, hpp, hl, hd, heq⟩ ↦ ⟨hp, hpp, hl, h.directory hd, heq⟩)

theorem walk_eq_ok (h : KeepsDirectories t t') {steps dir dir' : List String}
    (hw : t.walk dir steps = .ok dir') : t'.walk dir steps = .ok dir' := by
  induction steps generalizing dir with
  | nil => exact hw
  | cons name steps ih =>
    rw [walk_cons, bind_eq_ok_iff] at hw ⊢
    obtain ⟨next, hn, hw⟩ := hw
    exact ⟨next, h.step_eq_ok hn, ih hw⟩

/-- Where a path leads does not depend on files. -/
theorem locate_eq_ok (h : KeepsDirectories t t') {path : String} {spot : Spot}
    (hl : t.locate path = .ok spot) : t'.locate path = .ok spot := by
  obtain ⟨route, hr, dir, hw, rfl⟩ := locate_eq_ok_iff.mp hl
  exact locate_eq_ok_iff.mpr ⟨route, hr, dir, h.start_eq route ▸ h.walk_eq_ok hw, rfl⟩

end KeepsDirectories

/-! ## Places -/

/-- The names that lead to the file for which a path asks, whether it is there or not. -/
def place? (t : FileTree) (path : String) : Option (List String) :=
  match t.locate path with
  | .ok ⟨dir, some name, false⟩ =>
    if name.utf8ByteSize ≤ Route.nameLimit then some (dir ++ [name]) else none
  | _ => none

theorem place?_eq_some_iff {path : String} {names : List String} :
    t.place? path = some names ↔ ∃ dir name, t.locate path = .ok ⟨dir, some name, false⟩ ∧
      name.utf8ByteSize ≤ Route.nameLimit ∧ names = dir ++ [name] := by
  unfold place?
  split
  · next dir name hl => simp [hl, eq_comm]
  · next hl =>
    refine iff_of_false (by simp) ?_
    rintro ⟨dir, name, h, -⟩
    exact hl dir name h

theorem KeepsDirectories.place?_eq_some (h : KeepsDirectories t t') {path : String}
    {names : List String} (hp : t.place? path = some names) : t'.place? path = some names := by
  obtain ⟨dir, name, hl, hn, rfl⟩ := place?_eq_some_iff.mp hp
  exact place?_eq_some_iff.mpr ⟨dir, name, h.locate_eq_ok hl, hn, rfl⟩

theorem SameBut.place?_eq {changed : Set (List String)} (hs : SameBut changed t t')
    (path : String) : t'.place? path = t.place? path :=
  Option.ext fun _ ↦
    ⟨hs.symm.keepsDirectories.place?_eq_some, hs.keepsDirectories.place?_eq_some⟩

/-- Reading a path is looking at the place to which it leads. -/
theorem read_of_place? {path : String} {names : List String} (h : t.place? path = some names) :
    t.read path = match t.node? names with
      | none => .error .notFound
      | some .directory => .error .isDirectory
      | some (.file bytes) => .ok bytes := by
  obtain ⟨dir, name, hl, hn, rfl⟩ := place?_eq_some_iff.mp h
  simp only [read, hl, find, if_neg (Nat.not_lt.mpr hn), bind, Except.bind]
  cases t.node? (dir ++ [name]) with
  | none => rfl
  | some node => cases node <;> rfl

/-! ## Operations -/

theorem find_eq_ok_iff {dir : List String} {name : String} {node : Option Node} :
    t.find dir name = .ok node ↔
      name.utf8ByteSize ≤ Route.nameLimit ∧ t.node? (dir ++ [name]) = node := by
  unfold find
  split
  · next h => simp [Nat.not_le.mpr h]
  · next h => simp [Nat.not_lt.mp h]

/-- A file that can be read lies at a place. -/
theorem exists_place?_of_read {path : String} {bytes : ByteArray} (h : t.read path = .ok bytes) :
    ∃ names, t.place? path = some names ∧ t.node? names = some (.file bytes) := by
  obtain ⟨⟨dir, name, slash⟩, hl, h⟩ := bind_eq_ok_iff.mp h
  cases name with
  | none => cases h
  | some name =>
    obtain ⟨node, hf, h⟩ := bind_eq_ok_iff.mp h
    obtain ⟨hn, rfl⟩ := find_eq_ok_iff.mp hf
    split at h
    · cases h
    · cases h
    · next b hb =>
      cases slash with
      | true => cases h
      | false => exact ⟨_, place?_eq_some_iff.mpr ⟨dir, name, hl, hn, rfl⟩, Except.ok.inj h ▸ hb⟩

/-- Writing changes the place of the path. -/
theorem write_eq_ok {path : String} {bytes : ByteArray} (h : t.write path bytes = .ok t') :
    ∃ names, t.place? path = some names ∧ t'.node? names = some (.file bytes) ∧
      SameBut {names} t t' := by
  obtain ⟨⟨dir, name, slash⟩, hl, h⟩ := bind_eq_ok_iff.mp h
  cases name with
  | none => cases h
  | some name =>
    cases slash with
    | true => cases h
    | false =>
      obtain ⟨node, hf, h⟩ := bind_eq_ok_iff.mp h
      obtain ⟨hn, rfl⟩ := find_eq_ok_iff.mp hf
      have hdir : t.node? dir = some .directory := node?_dir_of_locate hl
      have hw : t.node? (dir ++ [name]) ≠ some .directory ∧ t' = t.setFile dir name bytes := by
        split at h
        · cases h
        · next b hb => exact ⟨by simp [hb], (Except.ok.inj h).symm⟩
        · next hb => exact ⟨by simp [hb], (Except.ok.inj h).symm⟩
      obtain ⟨hne, rfl⟩ := hw
      refine ⟨_, place?_eq_some_iff.mpr ⟨dir, name, hl, hn, rfl⟩, ?_,
        sameBut_setFile bytes hdir hne⟩
      rw [node?_setFile bytes hdir hne, if_pos rfl]

/-- Whatever is no directory can be written. -/
theorem exists_write_eq_ok {path : String} {names : List String} (h : t.place? path = some names)
    (hne : t.node? names ≠ some .directory) (bytes : ByteArray) :
    ∃ t', t.write path bytes = .ok t' := by
  obtain ⟨dir, name, hl, hn, rfl⟩ := place?_eq_some_iff.mp h
  refine ⟨t.setFile dir name bytes, bind_eq_ok_iff.mpr ⟨_, hl, ?_⟩⟩
  refine bind_eq_ok_iff.mpr ⟨_, find_eq_ok_iff.mpr ⟨hn, rfl⟩, ?_⟩
  split
  · next hd => exact absurd hd hne
  · rfl
  · rfl

/-- Removing a file changes its place. -/
theorem remove_eq_ok {path : String} (h : t.remove path = .ok t') :
    ∃ names, t.place? path = some names ∧ t'.node? names = none ∧ SameBut {names} t t' := by
  obtain ⟨⟨dir, name, slash⟩, hl, h⟩ := bind_eq_ok_iff.mp h
  cases name with
  | none => cases h
  | some name =>
    obtain ⟨node, hf, h⟩ := bind_eq_ok_iff.mp h
    obtain ⟨hn, rfl⟩ := find_eq_ok_iff.mp hf
    split at h
    · cases h
    · cases h
    · next b hb =>
      have hne : t.node? (dir ++ [name]) ≠ some .directory := by simp [hb]
      cases slash with
      | true => cases h
      | false =>
        obtain rfl := Except.ok.inj h
        refine ⟨_, place?_eq_some_iff.mpr ⟨dir, name, hl, hn, rfl⟩, ?_, sameBut_eraseFile hne⟩
        rw [node?_eraseFile hne, if_pos rfl]

/-- A file can be removed. -/
theorem exists_remove_eq_ok {path : String} {names : List String} {bytes : ByteArray}
    (h : t.place? path = some names) (hfile : t.node? names = some (.file bytes)) :
    ∃ t', t.remove path = .ok t' := by
  obtain ⟨dir, name, hl, hn, rfl⟩ := place?_eq_some_iff.mp h
  refine ⟨t.eraseFile (dir ++ [name]), bind_eq_ok_iff.mpr ⟨_, hl, ?_⟩⟩
  exact bind_eq_ok_iff.mpr ⟨_, find_eq_ok_iff.mpr ⟨hn, hfile⟩, rfl⟩

/-- Moving a file changes its old place and its new one. -/
theorem rename_eq_ok {source target : String} (h : t.rename source target = .ok t') :
    ∃ old new bytes, t.place? source = some old ∧ t.place? target = some new ∧
      t.node? old = some (.file bytes) ∧ t'.node? new = some (.file bytes) ∧
      (old ≠ new → t'.node? old = none) ∧ SameBut {old, new} t t' := by
  obtain ⟨⟨dir, name, slash⟩, hl, h⟩ := bind_eq_ok_iff.mp h
  obtain ⟨⟨dir', name', slash'⟩, hl', h⟩ := bind_eq_ok_iff.mp h
  cases name with
  | none => cases h
  | some name =>
    cases name' with
    | none => cases h
    | some name' =>
      obtain ⟨node, hf, h⟩ := bind_eq_ok_iff.mp h
      obtain ⟨hn, rfl⟩ := find_eq_ok_iff.mp hf
      split at h
      · cases h
      · cases h
      · next bytes hb =>
        obtain ⟨node, hf', h⟩ := bind_eq_ok_iff.mp h
        obtain ⟨hn', rfl⟩ := find_eq_ok_iff.mp hf'
        split at h
        · cases h
        next hs =>
        obtain ⟨rfl, rfl⟩ : slash = false ∧ slash' = false := by simpa using hs
        split at h
        · cases h
        next hd =>
        obtain rfl := Except.ok.inj h
        have hfile : t.node? (dir ++ [name]) = some (.file bytes) := hb
        have hne : t.node? (dir ++ [name]) ≠ some .directory := by simp [hfile]
        obtain ⟨hm, hnew, hold⟩ := sameBut_move bytes hne (node?_dir_of_locate hl') hd
        exact ⟨_, _, bytes, place?_eq_some_iff.mpr ⟨dir, name, hl, hn, rfl⟩,
          place?_eq_some_iff.mpr ⟨dir', name', hl', hn', rfl⟩, hfile, hnew, hold, hm⟩

/-- A file can be moved to whatever is no directory. -/
theorem exists_rename_eq_ok {source target : String} {old new : List String} {bytes : ByteArray}
    (hsource : t.place? source = some old) (htarget : t.place? target = some new)
    (hfile : t.node? old = some (.file bytes)) (hne : t.node? new ≠ some .directory) :
    ∃ t', t.rename source target = .ok t' := by
  obtain ⟨dir, name, hl, hn, rfl⟩ := place?_eq_some_iff.mp hsource
  obtain ⟨dir', name', hl', hn', rfl⟩ := place?_eq_some_iff.mp htarget
  refine ⟨(t.eraseFile (dir ++ [name])).setFile dir' name' bytes, ?_⟩
  refine bind_eq_ok_iff.mpr ⟨_, hl, bind_eq_ok_iff.mpr ⟨_, hl', ?_⟩⟩
  refine bind_eq_ok_iff.mpr ⟨_, find_eq_ok_iff.mpr ⟨hn, hfile⟩, ?_⟩
  refine bind_eq_ok_iff.mpr ⟨_, find_eq_ok_iff.mpr ⟨hn', rfl⟩, ?_⟩
  rw [if_neg (by simp), if_neg hne]

end PropertyTable.FileTree
