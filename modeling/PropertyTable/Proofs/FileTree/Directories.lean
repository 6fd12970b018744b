import PropertyTable.Proofs.FileTree.Frame

/-!
# Directories that are made

Making a directory makes those on the way to it that are missing, and nothing else: the new tree is
part of every tree that keeps what there was and in which the path leads to a directory.  It is made
whenever there is such a tree.
-/

namespace PropertyTable.FileTree

variable {t t' t'' : FileTree}

/-! ## Trees that gain directories -/

/-- The second tree has the entries of the first one, and besides them only directories. -/
structure Grown (t t' : FileTree) : Prop where
  here_eq : t'.here = t.here
  keeps : ∀ {names node}, t.node? names = some node → t'.node? names = some node
  gains : ∀ {names node}, t'.node? names = some node → t.node? names = some node ∨ node = .directory

namespace Grown

theorem refl (t : FileTree) : Grown t t := ⟨rfl, id, .inl⟩

theorem trans (h : Grown t t') (h' : Grown t' t'') : Grown t t'' where
  here_eq := h'.here_eq.trans h.here_eq
  keeps hn := h'.keeps (h.keeps hn)
  gains hn := (h'.gains hn).elim h.gains .inr

theorem antisymm (h : Grown t t') (h' : Grown t' t) : t = t' :=
  ext_node? h'.here_eq fun _ ↦ Option.ext fun _ ↦ ⟨h.keeps, h'.keeps⟩

/-- A tree between two others has no more than the last one gained. -/
theorem of_keeps (h : Grown t t'') (h' : Grown t t')
    (hk : ∀ {names node}, t'.node? names = some node → t''.node? names = some node) :
    Grown t' t'' where
  here_eq := h.here_eq.trans h'.here_eq.symm
  keeps := hk
  gains hn := (h.gains hn).imp_left h'.keeps

theorem keepsDirectories (h : Grown t t') : KeepsDirectories t t' := ⟨h.here_eq, h.keeps⟩

/-- Files keep their places and their contents. -/
theorem read_eq (h : Grown t t') {path : String} {bytes : ByteArray}
    (hr : t.read path = .ok bytes) : t'.read path = .ok bytes := by
  obtain ⟨names, hp, hb⟩ := exists_place?_of_read hr
  rw [read_of_place? (h.keepsDirectories.place?_eq_some hp), h.keeps hb]

end Grown

theorem grown_addDirectory {dir : List String} {name : String}
    (hdir : t.node? dir = some .directory) (hname : t.node? (dir ++ [name]) = none) :
    Grown t (t.addDirectory dir name) where
  here_eq := here_addDirectory ..
  keeps {names node} hn := by
    rw [node?_addDirectory hdir hname, if_neg, hn]
    rintro rfl
    simp [hname] at hn
  gains {names node} hn := by
    rw [node?_addDirectory hdir hname] at hn
    split at hn
    · exact .inr (Option.some.inj hn).symm
    · exact .inl hn

/-! ## Steps that make directories -/

/-- A step leads nowhere if its name is free. -/
theorem step_eq_notFound_iff {dir : List String} {name : String} :
    t.step dir name = .error .notFound ↔ name ≠ "." ∧ name ≠ ".." ∧
      name.utf8ByteSize ≤ Route.nameLimit ∧ t.node? (dir ++ [name]) = none := by
  unfold step
  by_cases hp : name = "."
  · simp [hp]
  by_cases hpp : name = ".."
  · simp [hpp]
  by_cases hl : Route.nameLimit < name.utf8ByteSize
  · simp [hp, hpp, hl]
  cases t.node? (dir ++ [name]) with
  | none => simp [hp, hpp, hl, Nat.not_lt.mp hl]
  | some node => cases node <;> simp [hp, hpp, hl]

theorem makeStep_eq_ok_iff {dir dir' : List String} {name : String} :
    makeStep (t, dir) name = .ok (t', dir') ↔
      t.step dir name = .ok dir' ∧ t' = t ∨
      t.step dir name = .error .notFound ∧ t' = t.addDirectory dir name ∧ dir' = dir ++ [name] := by
  cases hs : t.step dir name with
  | ok next => simp [makeStep, hs, and_comm, eq_comm]
  | error fault => cases fault <;> simp [makeStep, hs, eq_comm]

/-- One step makes a directory at most, and can be taken afterwards. -/
theorem grown_of_makeStep {dir dir' : List String} {name : String}
    (hdir : t.node? dir = some .directory) (h : makeStep (t, dir) name = .ok (t', dir')) :
    Grown t t' ∧ t'.step dir name = .ok dir' := by
  obtain ⟨hs, rfl⟩ | ⟨hs, rfl, rfl⟩ := makeStep_eq_ok_iff.mp h
  · exact ⟨.refl _, hs⟩
  · obtain ⟨hp, hpp, hl, hn⟩ := step_eq_notFound_iff.mp hs
    refine ⟨grown_addDirectory hdir hn, step_eq_ok_iff.mpr (.inr (.inr ⟨hp, hpp, hl, ?_, rfl⟩))⟩
    rw [node?_addDirectory hdir hn, if_pos rfl]

/-- A step that a grown tree can take can be taken with a directory made, and that directory is one
of the grown tree. -/
theorem Grown.exists_makeStep (h : Grown t t'') {dir dir' : List String} {name : String}
    (hdir : t.node? dir = some .directory) (hs : t''.step dir name = .ok dir') :
    ∃ t', makeStep (t, dir) name = .ok (t', dir') ∧ Grown t' t'' := by
  obtain ⟨rfl, rfl⟩ | ⟨rfl, rfl⟩ | ⟨hp, hpp, hl, hd, rfl⟩ := step_eq_ok_iff.mp hs
  · exact ⟨t, makeStep_eq_ok_iff.mpr (.inl ⟨rfl, rfl⟩), h⟩
  · exact ⟨t, makeStep_eq_ok_iff.mpr (.inl ⟨rfl, rfl⟩), h⟩
  · cases hn : t.node? (dir ++ [name]) with
    | none =>
      refine ⟨t.addDirectory dir name, makeStep_eq_ok_iff.mpr (.inr ⟨?_, rfl, rfl⟩), ?_⟩
      · exact step_eq_notFound_iff.mpr ⟨hp, hpp, hl, hn⟩
      · refine h.of_keeps (grown_addDirectory hdir hn) fun {names node} hnode ↦ ?_
        rw [node?_addDirectory hdir hn] at hnode
        split at hnode
        · next heq => rw [heq, hd, hnode]
        · exact h.keeps hnode
    | some node =>
      obtain rfl : node = .directory := Option.some.inj ((h.keeps hn).symm.trans hd)
      refine ⟨t, makeStep_eq_ok_iff.mpr (.inl ⟨?_, rfl⟩), h⟩
      exact step_eq_ok_iff.mpr (.inr (.inr ⟨hp, hpp, hl, hn, rfl⟩))

/-- All steps together only make directories, and can be walked afterwards. -/
theorem grown_of_foldlM_makeStep {steps dir dir' : List String}
    (hdir : t.node? dir = some .directory)
    (h : steps.foldlM makeStep (t, dir) = .ok (t', dir')) :
    Grown t t' ∧ t'.walk dir steps = .ok dir' := by
  induction steps generalizing t dir with
  | nil =>
    obtain ⟨rfl, rfl⟩ := Prod.mk.inj (Except.ok.inj h)
    exact ⟨.refl _, rfl⟩
  | cons name steps ih =>
    rw [List.foldlM_cons, bind_eq_ok_iff] at h
    obtain ⟨⟨tree, next⟩, hm, h⟩ := h
    obtain ⟨hg, hs⟩ := grown_of_makeStep hdir hm
    obtain ⟨hg', hw⟩ := ih (node?_of_step (hg.keeps hdir) hs) h
    refine ⟨hg.trans hg', ?_⟩
    rw [walk_cons, bind_eq_ok_iff]
    exact ⟨next, hg'.keepsDirectories.step_eq_ok hs, hw⟩

/-- Steps that a grown tree can walk are made, and every directory made is one of the grown tree. -/
theorem Grown.exists_foldlM_makeStep (h : Grown t t'') {steps dir dir' : List String}
    (hdir : t.node? dir = some .directory) (hw : t''.walk dir steps = .ok dir') :
    ∃ t', steps.foldlM makeStep (t, dir) = .ok (t', dir') ∧ Grown t' t'' := by
  -- The tree made so far changes from step to step, and never outgrows the given one.
  induction steps generalizing t dir with
  | nil =>
    obtain rfl : dir = dir' := Except.ok.inj hw
    exact ⟨t, rfl, h⟩
  | cons name steps ih =>
    rw [walk_cons, bind_eq_ok_iff] at hw
    obtain ⟨next, hs, hw⟩ := hw
    obtain ⟨tree, hm, hg⟩ := h.exists_makeStep hdir hs
    obtain ⟨hgt, hst⟩ := grown_of_makeStep hdir hm
    obtain ⟨t', hf, hg'⟩ := ih hg (node?_of_step (hgt.keeps hdir) hst) hw
    refine ⟨t', ?_, hg'⟩
    rw [List.foldlM_cons, bind_eq_ok_iff]
    exact ⟨(tree, next), hm, hf⟩

/-! ## Paths to directories -/

/-- All steps of the path can be taken. -/
def LeadsToDirectory (t : FileTree) (path : String) : Prop :=
  ∃ route dir, Route.ofPath path = .ok route ∧ t.walk (t.start route) route.steps = .ok dir

/-- Directories are made step by step, for every path but the empty one. -/
theorem makeDirectories_eq_ok_iff_foldlM {path : String} :
    t.makeDirectories path = .ok t' ↔ path = "" ∧ t' = t ∨
      path ≠ "" ∧ ∃ route dir, Route.ofPath path = .ok route ∧
        route.steps.foldlM makeStep (t, t.start route) = .ok (t', dir) := by
  by_cases hp : path = ""
  · simp [makeDirectories, hp, pure, Except.pure, @eq_comm _ t]
  · simp [makeDirectories, hp, bind_eq_ok_iff, pure, Except.pure]

/-- What is made for a path that leads to a directory in some grown tree is part of that tree. -/
theorem Grown.exists_makeDirectories (h : Grown t t'') {path : String}
    (hl : t''.LeadsToDirectory path) : ∃ t', t.makeDirectories path = .ok t' ∧ Grown t' t'' := by
  obtain ⟨route, dir, hr, hw⟩ := hl
  rw [h.keepsDirectories.start_eq] at hw
  obtain ⟨t', hf, hg⟩ := h.exists_foldlM_makeStep (t.node?_start route) hw
  refine ⟨t', makeDirectories_eq_ok_iff_foldlM.mpr (.inr ⟨?_, route, dir, hr, hf⟩), hg⟩
  rintro rfl
  simp [Route.ofPath] at hr

/-- Making directories only makes directories, and the path leads to one of them then. -/
theorem grown_of_makeDirectories {path : String} (h : t.makeDirectories path = .ok t') :
    Grown t t' ∧ (path ≠ "" → t'.LeadsToDirectory path) := by
  obtain ⟨rfl, rfl⟩ | ⟨-, route, dir, hr, hf⟩ := makeDirectories_eq_ok_iff_foldlM.mp h
  · exact ⟨.refl _, fun h ↦ absurd rfl h⟩
  · obtain ⟨hg, hw⟩ := grown_of_foldlM_makeStep (t.node?_start route) hf
    exact ⟨hg, fun _ ↦ ⟨route, dir, hr, hg.keepsDirectories.start_eq route ▸ hw⟩⟩

/-- Directories are made for a path iff the new tree is the least one that has the old entries and
in which the path leads to a directory. -/
theorem makeDirectories_eq_ok_iff {path : String} (hp : path ≠ "") :
    t.makeDirectories path = .ok t' ↔ Grown t t' ∧ t'.LeadsToDirectory path ∧
      ∀ u, Grown t u → u.LeadsToDirectory path → Grown t' u := by
  constructor
  · intro h
    obtain ⟨hg, hl⟩ := grown_of_makeDirectories h
    refine ⟨hg, hl hp, fun u hu hlu ↦ ?_⟩
    obtain ⟨made, hm, hmu⟩ := hu.exists_makeDirectories hlu
    obtain rfl : t' = made := Except.ok.inj (h.symm.trans hm)
    exact hmu
  · rintro ⟨hg, hl, hleast⟩
    obtain ⟨made, hm, hmt⟩ := hg.exists_makeDirectories hl
    obtain ⟨hgm, hlm⟩ := grown_of_makeDirectories hm
    rw [hm, hmt.antisymm (hleast made hgm (hlm hp))]

/-- Directories that were made are there already. -/
theorem makeDirectories_again {path : String} (h : t.makeDirectories path = .ok t') :
    t'.makeDirectories path = .ok t' := by
  by_cases hp : path = ""
  · exact makeDirectories_eq_ok_iff_foldlM.mpr (.inl ⟨hp, rfl⟩)
  · obtain ⟨-, hl, -⟩ := (makeDirectories_eq_ok_iff hp).mp h
    exact (makeDirectories_eq_ok_iff hp).mpr ⟨.refl t', hl, fun _ hu _ ↦ hu⟩

/-- A directory that the path leaves again is made as well. -/
example : (fresh.makeDirectories "a/../b//c").toOption.map toList
    = some [(["a"], .directory), (["b"], .directory), (["b", "c"], .directory)] := by decide

/-! ## Listing a tree -/

/-- What is listed lies below the working directory. -/
theorem mem_toList {names : List String} {node : Node} :
    (names, node) ∈ t.toList ↔ names ≠ [] ∧ t.node? (t.here ++ names) = some node := by
  simp only [toList, List.mem_filterMap, Prod.exists, List.splitAt_eq,
    Option.ite_none_right_eq_some, Option.some.injEq, Prod.mk.injEq,
    Std.ExtTreeMap.mem_toList_iff_getElem?_eq_some]
  constructor
  · rintro ⟨whole, node, hm, ⟨hh, hn⟩, rfl, rfl⟩
    refine ⟨hn, ?_⟩
    have heq : t.here ++ whole.drop t.here.length = whole := by
      conv_rhs => rw [← List.take_append_drop t.here.length whole, hh]
    rw [heq]
    exact hm
  · rintro ⟨hn, hm⟩
    exact ⟨t.here ++ names, node, hm, by simpa using hn, by simp, rfl⟩

/-- A grown tree lists the same files. -/
theorem Grown.file_mem_toList_iff (h : Grown t t') {names : List String} {bytes : ByteArray} :
    (names, .file bytes) ∈ t'.toList ↔ (names, .file bytes) ∈ t.toList := by
  rw [mem_toList, mem_toList, h.here_eq]
  refine and_congr_right fun _ ↦ ⟨fun hn ↦ ?_, h.keeps⟩
  exact (h.gains hn).resolve_right (by simp)

private theorem compare_append_left (above as bs : List String) :
    compare (above ++ as) (above ++ bs) = compare as bs := by
  induction above with
  | nil => rfl
  | cons name above ih =>
    rw [← ih]
    simp [List.compare_eq_compareLex]

/-- Entries are listed in the order of their names. -/
theorem pairwise_toList (t : FileTree) : t.toList.Pairwise fun a b ↦ compare a.1 b.1 = .lt := by
  rw [toList, List.pairwise_filterMap]
  refine Std.ExtTreeMap.ordered_keys_toList.imp fun {a b} hab below hb below' hb' ↦ ?_
  simp only [List.splitAt_eq, Option.ite_none_right_eq_some, Option.some.injEq] at hb hb'
  obtain ⟨⟨ha, -⟩, rfl⟩ := hb
  obtain ⟨⟨ha', -⟩, rfl⟩ := hb'
  rw [← List.take_append_drop t.here.length a.1, ← List.take_append_drop t.here.length b.1, ha, ha',
    compare_append_left] at hab
  exact hab

end PropertyTable.FileTree
