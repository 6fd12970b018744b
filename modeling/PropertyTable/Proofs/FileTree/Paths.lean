import Mathlib.Data.List.Basic
import PropertyTable.Proofs.FileTree.Frame
import PropertyTable.Proofs.Text.Lines

/-!
# The last name of a path

The names of a path are those before and after any of its slashes.  So what stands after the last
slash is the last name, and a text without slashes at the end of a path makes only this name longer.
-/

namespace PropertyTable.FileTree

namespace Route

@[simp] theorem names_nil : names [] = [] := rfl

@[simp] theorem names_slash (cs : List Char) : names ('/' :: cs) = names cs := by simp [names]

/-- Without slashes, a text is put in front of the first part. -/
private theorem foldr_word {word : List Char} (h : '/' ∉ word) (parts : List (List Char)) :
    word.foldr (fun c parts ↦ if c = '/' then [] :: parts else Text.joinFirst c parts) parts
      = word.foldr Text.joinFirst parts := by
  refine List.foldr_ext _ _ _ fun c hc parts ↦ if_neg ?_
  rintro rfl
  exact h hc

/-- A word is one name. -/
theorem names_word {word : List Char} (h : '/' ∉ word) (hn : word ≠ []) :
    names word = [String.ofList word] := by
  rw [names, foldr_word h]
  rcases List.eq_nil_or_concat word with rfl | ⟨init, c, rfl⟩
  · exact absurd rfl hn
  · have hf : (init ++ [c]).foldr Text.joinFirst [] = [init ++ [c]] := by
      rw [List.foldr_append]
      exact Text.foldr_joinFirst init [c] []
    rw [List.concat_eq_append, hf]
    simp

/-- A word before a slash is a name of its own, unless it is empty. -/
theorem names_word_slash {word : List Char} (h : '/' ∉ word) (cs : List Char) :
    names (word ++ '/' :: cs) = names word ++ names cs := by
  by_cases hn : word = []
  · rw [hn, List.nil_append, names_slash, names_nil, List.nil_append]
  · rw [names_word h hn, names, List.foldr_append, foldr_word h, List.foldr_cons, if_pos rfl,
      Text.foldr_joinFirst, List.append_nil]
    simp [hn, names]

/-- The names of a path are those before a slash and those after it. -/
theorem names_append_slash (as bs : List Char) :
    names (as ++ '/' :: bs) = names as ++ names bs := by
  suffices h : ∀ word, '/' ∉ word →
      names (word ++ as ++ '/' :: bs) = names (word ++ as) ++ names bs from
    h [] List.not_mem_nil
  induction as with
  | nil =>
    intro word hw
    rw [List.append_nil, names_word_slash hw]
  | cons a as ih =>
    intro word hw
    by_cases ha : a = '/'
    · have hi := ih [] List.not_mem_nil
      rw [List.nil_append] at hi
      rw [ha, List.append_assoc, List.cons_append, names_word_slash hw, names_word_slash hw, hi,
        List.append_assoc]
    · have hi := ih (word ++ [a]) (by simpa [hw] using Ne.symm ha)
      simpa using hi

/-- A path ends in a word: it is the word, or a slash stands before it. -/
structure EndsIn (cs word : List Char) : Prop where
  ne_nil : word ≠ []
  slash_notMem : '/' ∉ word
  eq_or_eq_append : cs = word ∨ ∃ as, cs = as ++ '/' :: word

theorem EndsIn.append {cs word : List Char} (h : EndsIn cs word) {more : List Char}
    (hm : '/' ∉ more) :
    EndsIn (cs ++ more) (word ++ more) where
  ne_nil := by simp [h.ne_nil]
  slash_notMem := by simp [h.slash_notMem, hm]
  eq_or_eq_append := by
    rcases h.eq_or_eq_append with rfl | ⟨as, rfl⟩
    · exact .inl rfl
    · exact .inr ⟨as, by rw [List.append_assoc, List.cons_append]⟩

/-- Names lead to the word in which a path ends, and they do not depend on it. -/
theorem EndsIn.exists_names_eq {cs word : List Char} (h : EndsIn cs word) :
    ∃ above, ∀ more, '/' ∉ more → names (cs ++ more) = above ++ [String.ofList (word ++ more)] := by
  have hw : ∀ more, '/' ∉ more → names (word ++ more) = [String.ofList (word ++ more)] := by
    intro more hm
    apply names_word
    · simp [h.slash_notMem, hm]
    · simp [h.ne_nil]
  rcases h.eq_or_eq_append with rfl | ⟨as, rfl⟩
  · exact ⟨[], hw⟩
  · refine ⟨names as, fun more hm ↦ ?_⟩
    rw [List.append_assoc, List.cons_append, names_append_slash, hw more hm]

theorem EndsIn.getLast?_names {cs word : List Char} (h : EndsIn cs word) :
    (names cs).getLast? = some (String.ofList word) := by
  obtain ⟨above, hn⟩ := h.exists_names_eq
  rw [← List.append_nil cs, hn [] List.not_mem_nil, List.append_nil, List.getLast?_concat]

theorem EndsIn.getLast?_ne_slash {cs word : List Char} (h : EndsIn cs word) :
    cs.getLast? ≠ some '/' := by
  intro hs
  apply h.slash_notMem
  apply List.mem_of_getLast?
  rcases h.eq_or_eq_append with rfl | ⟨as, rfl⟩
  · exact hs
  · rwa [List.append_cons, List.getLast?_append_of_ne_nil _ h.ne_nil] at hs

/-- A path that does not end in a slash ends in a word. -/
theorem exists_endsIn {cs : List Char} (hn : cs ≠ []) (hs : cs.getLast? ≠ some '/') :
    ∃ word, EndsIn cs word := by
  by_cases hm : '/' ∈ cs
  · -- The last slash is the first one of the path read backwards.
    obtain ⟨rev, before, hr, hw⟩ := List.eq_append_cons_of_mem (List.mem_reverse.mpr hm)
    have hcs : cs = before.reverse ++ '/' :: rev.reverse := by
      rw [← List.reverse_reverse cs, hr]
      simp
    refine ⟨rev.reverse, ?_, by rwa [List.mem_reverse], .inr ⟨before.reverse, hcs⟩⟩
    intro hrev
    exact hs (by rw [hcs, hrev, List.getLast?_concat])
  · exact ⟨cs, hn, hm, .inl rfl⟩

/-- What a path is read as, if it can be read. -/
theorem ofPath_eq_ok {path : String} {route : Route} (h : ofPath path = .ok route) :
    path.toList ≠ [] ∧ route.steps = names path.toList ∧
      route.slash = decide (path.toList.getLast? = some '/') := by
  unfold ofPath at h
  simp only at h
  split at h
  · cases h
  split at h
  · cases h
  next hn =>
  split at h
  · cases h
  · obtain rfl := Except.ok.inj h
    exact ⟨hn, rfl, rfl⟩

/-- A path that can be read with something added to its last name can be read without it, and takes
the same steps up to the last one. -/
theorem ofPath_of_append {path more : String} {word : List Char} (hw : EndsIn path.toList word)
    (hm : '/' ∉ more.toList) {route : Route} (h : ofPath (path ++ more) = .ok route) :
    ∃ above, ofPath path = .ok ⟨route.fromRoot, above ++ [String.ofList word], false⟩ ∧
      route.steps = above ++ [String.ofList (word ++ more.toList)] := by
  obtain ⟨above, hn⟩ := hw.exists_names_eq
  have hne : path.toList ≠ [] := by
    rcases hw.eq_or_eq_append with he | ⟨as, he⟩
    · rw [he]
      exact hw.ne_nil
    · simp [he]
  unfold ofPath at h ⊢
  simp only [String.toList_append, String.utf8ByteSize_append] at h ⊢
  split at h
  · cases h
  next hnul =>
  split at h
  · cases h
  split at h
  · cases h
  next hlimit =>
  obtain rfl := Except.ok.inj h
  rw [List.mem_append, not_or] at hnul
  have hpath := hn [] List.not_mem_nil
  rw [List.append_nil, List.append_nil] at hpath
  refine ⟨above, ?_, hn _ hm⟩
  rw [if_neg hnul.1, if_neg hne, if_neg (by omega), hpath, decide_eq_false hw.getLast?_ne_slash,
    List.head?_append_of_ne_nil _ hne]

end Route

variable {t : FileTree}

/-- A path that leads to a place ends in a word. -/
theorem exists_endsIn_of_place? {path : String} {names : List String}
    (h : t.place? path = some names) :
    ∃ word, Route.EndsIn path.toList word := by
  obtain ⟨dir, name, hl, -, rfl⟩ := place?_eq_some_iff.mp h
  obtain ⟨route, hr, dir, -, hs⟩ := locate_eq_ok_iff.mp hl
  obtain ⟨hn, -, hslash⟩ := Route.ofPath_eq_ok hr
  obtain ⟨-, -, hfile⟩ := Spot.mk.inj hs
  rw [hslash, decide_eq_false_iff_not] at hfile
  exact Route.exists_endsIn hn hfile

/-- The word in which a path ends is the last name of its place. -/
theorem getLast?_of_place? {path : String} {names : List String} (h : t.place? path = some names)
    {word : List Char} (hw : Route.EndsIn path.toList word) :
    names.getLast? = some (String.ofList word) := by
  obtain ⟨dir, name, hl, -, rfl⟩ := place?_eq_some_iff.mp h
  obtain ⟨route, hr, dir, -, hs⟩ := locate_eq_ok_iff.mp hl
  obtain ⟨-, hsteps, -⟩ := Route.ofPath_eq_ok hr
  obtain ⟨-, hname, -⟩ := Spot.mk.inj hs
  rw [hsteps, hw.getLast?_names] at hname
  obtain ⟨hlast, -⟩ := Option.filter_eq_some_iff.mp hname
  rw [List.getLast?_concat, hlast]

/-- If a path leads to a place with something added to its last name, it leads to the place beside
it without. -/
theorem place?_of_append {path more : String} {word : List Char}
    (hw : Route.EndsIn path.toList word) (hdots : word ≠ ['.'] ∧ word ≠ ['.', '.'])
    (hm : '/' ∉ more.toList) {names : List String} (h : t.place? (path ++ more) = some names) :
    t.place? path = some (names.dropLast ++ [String.ofList word]) := by
  have hdots' : String.ofList word ≠ "." ∧ String.ofList word ≠ ".." :=
    ⟨fun he ↦ hdots.1 (String.ofList_injective he), fun he ↦ hdots.2 (String.ofList_injective he)⟩
  obtain ⟨dir, name, hl, hn, rfl⟩ := place?_eq_some_iff.mp h
  obtain ⟨route, hr, dir, hwalk, hs⟩ := locate_eq_ok_iff.mp hl
  obtain ⟨rfl, hname, -⟩ := Spot.mk.inj hs
  obtain ⟨above, hr', hsteps⟩ := Route.ofPath_of_append hw hm hr
  rw [hsteps, List.dropLast_concat] at hwalk
  rw [hsteps, List.getLast?_concat] at hname
  obtain ⟨hlast, -⟩ := Option.filter_eq_some_iff.mp hname
  obtain rfl := Option.some.inj hlast
  have hsize : (String.ofList word).utf8ByteSize ≤ Route.nameLimit := by
    rw [String.ofList_append, String.utf8ByteSize_append] at hn
    omega
  rw [List.dropLast_concat]
  apply place?_eq_some_iff.mpr
  refine ⟨dir, String.ofList word, locate_eq_ok_iff.mpr ⟨_, hr', dir, ?_, ?_⟩, hsize, rfl⟩
  · rwa [List.dropLast_concat]
  · rw [List.getLast?_concat]
    simp [hdots']

/-- Paths that end in different words lead to different places. -/
theorem ne_of_endsIn {path path' : String} {as bs : List String} (ha : t.place? path = some as)
    (hb : t.place? path' = some bs) {word word' : List Char} (hw : Route.EndsIn path.toList word)
    (hw' : Route.EndsIn path'.toList word') (hne : word ≠ word') : as ≠ bs := by
  rintro rfl
  have hl := (getLast?_of_place? ha hw).symm.trans (getLast?_of_place? hb hw')
  exact hne (String.ofList_injective (Option.some.inj hl))

/-- A path with something added to its last name leads to another place. -/
theorem ne_of_place?_append {path more : String} (hm : '/' ∉ more.toList) (hn : more.toList ≠ [])
    {as bs : List String} (ha : t.place? path = some as) (hb : t.place? (path ++ more) = some bs) :
    as ≠ bs := by
  obtain ⟨word, hw⟩ := exists_endsIn_of_place? ha
  refine ne_of_endsIn ha hb hw (String.toList_append ▸ hw.append hm) fun h ↦ ?_
  exact hn (List.append_right_eq_self.mp h.symm)

end PropertyTable.FileTree
