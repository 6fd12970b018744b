import PropertyTable.Proofs.CommandLine.Arguments

/-!
# Builds as arguments

A build is spelled out by a setting for each of its parts and the name of its property.  The
arguments are read as this very build, whatever stands in the names of its directories, and switches
for what is told change nothing but the level.
-/

namespace PropertyTable.CommandLine

/-- A setting with its value, as one argument. -/
def Setting.spelled (s : Setting) (value : String) : String := "--" ++ s.name ++ "=" ++ value

/-- Arguments that ask for a build, with switches for what is told. -/
def argumentsFor (b : Build) (verbose : Nat) (quiet : Bool) : List String :=
  List.replicate verbose "-v" ++ (if quiet then ["-q"] else []) ++
    [Setting.format.spelled b.language.keyword, Setting.inputDir.spelled b.inputDir,
      Setting.outputDir.spelled b.outputDir, b.property.name]

/-! ## Words -/

/-- The name of a setting ends at the first equals sign, whatever the value is. -/
theorem Word.ofName_append (s : Setting) (value : List Char) :
    Word.ofName (s.name.toList ++ '=' :: value) = .setting s (some (String.ofList value)) := by
  have hfree : '=' ∉ s.name.toList := by
    cases s <;> decide
  have hname : ∀ c ∈ s.name.toList, decide (c ≠ '=') = true := by
    intro c hc
    exact decide_eq_true (ne_of_mem_of_not_mem hc hfree)
  have hfind : Setting.all.find? (·.name == s.name) = some s := by
    cases s <;> decide
  simp only [ofName, List.takeWhile_append_of_pos hname, List.dropWhile_append_of_pos hname]
  rw [List.takeWhile_cons_of_neg (by decide), List.dropWhile_cons_of_neg (by decide),
    List.append_nil, String.ofList_toList, hfind]

/-- A setting is read with whatever value is attached to it. -/
theorem Word.ofText_spelled (s : Setting) (value : String) :
    Word.ofText (s.spelled value) = .setting s (some value) := by
  have htext : (s.spelled value).toList = '-' :: '-' :: (s.name.toList ++ '=' :: value.toList) := by
    simp [Setting.spelled]
  have hword : Word.ofText (s.spelled value)
      = Word.ofName (s.name.toList ++ '=' :: value.toList) := by
    obtain ⟨c, rest, hc⟩ := List.exists_cons_of_ne_nil
      (List.append_ne_nil_of_right_ne_nil s.name.toList (List.cons_ne_nil '=' value.toList))
    rw [ofText, htext, hc]
    rfl
  rw [hword, ofName_append, String.ofList_toList]

/-! ## Scans -/

namespace Scan

variable {s : Scan}

theorem settled_of_pending_none (h : s.pending = none) : s.settled = .ok s := by
  rw [settled, settle, h]
  rfl

theorem take_spelled (hd : s.divided = false) (hp : s.pending = none) (setting : Setting)
    (value : String) :
    s.take (setting.spelled value) = (s.assign setting value).mapError .usage := by
  rw [take, hd, Word.ofText_spelled, settled_of_pending_none hp]
  rfl

theorem take_verbose (k : Nat) :
    take { verbose := k } "-v" = .ok { verbose := min verboseLimit (k + 1) } := by
  rfl

/-- Verbose switches are counted up to the limit. -/
theorem foldlM_take_verbose (k n : Nat) :
    (List.replicate n "-v").foldlM take { verbose := min verboseLimit k }
      = .ok { verbose := min verboseLimit (k + n) } := by
  induction n generalizing k with
  | zero => rfl
  | succ n ih =>
    have hmin : min verboseLimit (min verboseLimit k + 1) = min verboseLimit (k + 1) := by omega
    rw [List.replicate_succ, List.foldlM_cons, take_verbose, hmin]
    show (List.replicate n "-v").foldlM take { verbose := min verboseLimit (k + 1) } = _
    rw [ih, Nat.add_assoc, Nat.add_comm 1]

theorem foldlM_take_switches (verbose : Nat) (quiet : Bool) :
    (List.replicate verbose "-v" ++ if quiet then ["-q"] else []).foldlM take {}
      = .ok { verbose := min verboseLimit verbose, quiet } := by
  have hv := foldlM_take_verbose 0 verbose
  rw [Nat.zero_add] at hv
  rw [List.foldlM_append]
  show (List.replicate verbose "-v").foldlM take { verbose := min verboseLimit 0 } >>= _ = _
  rw [hv]
  cases quiet <;> rfl

/-- Settings and the property are kept as they are spelled. -/
theorem foldlM_take_settings {b : Build} (hi : b.inputDir ≠ "") (ho : b.outputDir ≠ "")
    (verbose : Nat) (quiet : Bool) :
    [Setting.format.spelled b.language.keyword, Setting.inputDir.spelled b.inputDir,
      Setting.outputDir.spelled b.outputDir, b.property.name].foldlM take { verbose, quiet }
      = .ok {
          language := some b.language
          inputDir := some b.inputDir
          outputDir := some b.outputDir
          verbose
          quiet
          pending := some (.property b.property.name)
          named := true } := by
  have hl : b.language.keyword.isEmpty = false ∧
      Language.ofKeyword? b.language.keyword = some b.language := by
    cases b.language <;> decide
  have hi : b.inputDir.isEmpty = false := by simpa using hi
  have ho : b.outputDir.isEmpty = false := by simpa using ho
  have hw : Word.ofText b.property.name = .plain b.property.name := by
    cases b.property <;> decide
  simp only [List.foldlM_cons, List.foldlM_nil]
  rw [take_spelled rfl rfl]
  simp only [assign, hl]
  show take _ _ >>= _ = _
  rw [take_spelled rfl rfl]
  simp only [assign, hi]
  show take _ _ >>= _ = _
  rw [take_spelled rfl rfl]
  simp only [assign, ho]
  show take _ _ >>= _ = _
  rw [take, hw]
  rfl

end Scan

/-- Counting verbose switches beyond the limit would show no more events. -/
theorem ofFlags_min_verboseLimit (verbose : Nat) (quiet : Bool) :
    Level.ofFlags (min Scan.verboseLimit verbose) quiet = Level.ofFlags verbose quiet := by
  rcases verbose with _ | _ | n
  · rfl
  · rfl
  · have hm : min Scan.verboseLimit (n + 2) = min 253 n + 2 := by
      rw [Scan.verboseLimit]
      omega
    rw [hm]
    rfl

/-- Every build with named directories can be asked for, with any switches for what is told. -/
theorem exists_parse_argumentsFor {b : Build} (hi : b.inputDir ≠ "") (ho : b.outputDir ≠ "")
    (verbose : Nat) (quiet : Bool) :
    ∃ r, parse (argumentsFor b verbose quiet) = .ok r ∧ r.build = b ∧
      r.level = .ofFlags verbose quiet := by
  have hp := Property.ofText?_name b.property
  refine ⟨⟨b, .ofNat (min Scan.verboseLimit verbose), quiet⟩, parse_eq_ok_iff.mpr ?_, rfl, ?_⟩
  · rw [takeAll, argumentsFor, List.foldlM_append, Scan.foldlM_take_switches]
    show List.foldlM _ _ _ >>= _ = _
    rw [Scan.foldlM_take_settings hi ho]
    show Scan.finish _ = _
    rw [Scan.finish, Scan.settled, Scan.settle]
    simp only [hp]
    rfl
  · have hlimit : min Scan.verboseLimit verbose < UInt8.size := by
      rw [Scan.verboseLimit, UInt8.size]
      omega
    rw [Program.Request.level, UInt8.toNat_ofNat_of_lt' hlimit, ofFlags_min_verboseLimit]

end PropertyTable.CommandLine
