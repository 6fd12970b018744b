import Mathlib.Logic.Relation
import PropertyTable.Proofs.Listing.Concatenation

/-!
# The layout of a listing

White space inside lines, comments at their ends, a newline at the end of the text and a byte order
mark at its beginning are layout.  A listing is read with the same result whatever its layout: as
the same set, or with the same fault of the same line.
-/

namespace PropertyTable.Listing

open Text

variable {line line' : List Char}

/-! ## Layout of a line -/

/-- What ends a field is no white space. -/
theorem isBlank_of_endsField {c : Char} (h : endsField c = true) : isBlank c = false := by
  have hb : isBlank fieldSeparator = false ∧ isBlank commentMarker = false := by decide
  rcases Bool.or_eq_true_iff.mp h with h | h
  · exact eq_of_beq h ▸ hb.1
  · exact eq_of_beq h ▸ hb.2

theorem field_dropBlanks (line : List Char) : field (dropBlanks line) = field line := by
  have hp : (fun c ↦ !!isBlank c || !endsField c) = fun c ↦ !endsField c := by
    funext c
    cases he : endsField c with
    | true => simp [isBlank_of_endsField he]
    | false => simp
  have ht : (dropBlanks line).takeWhile (fun c ↦ !endsField c)
      = dropBlanks (line.takeWhile fun c ↦ !endsField c) := by
    rw [dropBlanks, List.takeWhile_filter, hp, dropBlanks]
  rw [field, field, ht, dropBlanks_dropBlanks]

theorem hasSeparator_dropBlanks (line : List Char) :
    hasSeparator (dropBlanks line) = hasSeparator line := by
  have hp : (fun c ↦ decide ((!isBlank c) = true ∧ endsField c = true)) = endsField := by
    funext c
    cases he : endsField c with
    | true => simp [isBlank_of_endsField he]
    | false => simp
  rw [hasSeparator, dropBlanks, List.find?_filter, hp, hasSeparator]

/-- White space means nothing in a line. -/
theorem readEntry_dropBlanks (line : List Char) : readEntry (dropBlanks line) = readEntry line := by
  rw [readEntry, readEntry, field_dropBlanks, hasSeparator_dropBlanks]

theorem readEntry_congr_blanks (h : dropBlanks line = dropBlanks line') :
    readEntry line = readEntry line' := by
  rw [← readEntry_dropBlanks line, h, readEntry_dropBlanks]

/-- A line may have a comment at its end. -/
theorem readEntry_append_comment (line text : List Char) :
    readEntry (line ++ '#' :: text) = readEntry line := by
  apply readEntry_congr
  induction line with
  | nil => rfl
  | cons c line ih =>
    rw [uncommented, uncommented, List.cons_append, List.takeWhile_cons, List.takeWhile_cons]
    split
    · exact congrArg _ ih
    · rfl

/-- The carriage return in the end of a line is white space. -/
theorem readEntry_chomp (line : List Char) : readEntry (chomp line) = readEntry line := by
  unfold chomp
  split
  · next hr =>
    obtain ⟨before, rfl⟩ := List.getLast?_eq_some_iff.mp hr
    apply readEntry_congr_blanks
    rw [List.dropLast_concat, dropBlanks_append]
    exact (List.append_nil _).symm
  · rfl

/-! ## Layout of lines -/

/-- Only what lines mean matters for the result of reading them. -/
theorem readLines_outcome_congr {ls ls' : List (List Char)}
    (h : ls.map readEntry = ls'.map readEntry) (p : Progress) (number : Nat) :
    (readLines p number ls).outcome = (readLines p number ls').outcome := by
  induction ls generalizing ls' p number with
  | nil =>
    obtain rfl := List.map_eq_nil_iff.mp h.symm
    rfl
  | cons line rest ih =>
    obtain ⟨line', rest', rfl, hl, hr⟩ := List.map_eq_cons_iff.mp h.symm
    rw [readLines, readLines, Logged.outcome_bind, Logged.outcome_bind, readLine_outcome,
      readLine_outcome, hl]
    exact congrArg _ (funext fun q ↦ ih hr.symm q (number + 1))

/-- A line without an entry at the end changes nothing. -/
theorem readLines_append_void (h : readEntry line = .ok none) (p : Progress) (number : Nat)
    (ls : List (List Char)) :
    (readLines p number (ls ++ [line])).outcome = (readLines p number ls).outcome := by
  rw [readLines_append_outcome]
  cases (readLines p number ls).outcome with
  | error failure => rfl
  | ok q =>
    show (readLines q _ [line]).outcome = .ok q
    rw [readLines, Logged.outcome_bind, readLine_outcome, h]
    rfl

theorem readEntry_nil : readEntry [] = .ok none := rfl

/-- Lines are read as the parts of their text between newlines. -/
theorem readLines_lines (cs : List Char) (p : Progress) (number : Nat) :
    (readLines p number (lines cs)).outcome = (readLines p number (cs.splitOn '\n')).outcome := by
  induction cs using line_induction generalizing p number with
  | last cs hn =>
    rw [lines_of_notMem hn, List.splitOn_eq_singleton hn]
    split
    · next hcs =>
      rw [hcs]
      exact (readLines_append_void readEntry_nil p number []).symm
    · rfl
  | line as bs hn ih =>
    rw [lines_append_newline hn, List.splitOn_append_cons_self_of_not_mem hn, readLines, readLines,
      Logged.outcome_bind, Logged.outcome_bind, readLine_outcome, readLine_outcome, readEntry_chomp]
    exact congrArg _ (funext fun q ↦ ih q (number + 1))

/-- What means nothing at a place of a line means nothing at this place of a text. -/
theorem readLines_lines_insert (as bs : List Char) {cs : List Char} (hn : '\n' ∉ cs)
    (h : ∀ before, readEntry (before ++ cs ++ bs.takeWhile (· != '\n'))
      = readEntry (before ++ bs.takeWhile (· != '\n'))) (p : Progress) (number : Nat) :
    (readLines p number (lines (as ++ cs ++ bs))).outcome
      = (readLines p number (lines (as ++ bs))).outcome := by
  obtain ⟨above, before, below, hs⟩ := exists_splitOn_append as bs
  have hs' := hs [] List.not_mem_nil
  rw [List.append_nil, List.append_nil] at hs'
  rw [readLines_lines, readLines_lines, hs cs hn, hs']
  apply readLines_outcome_congr
  rw [List.map_append, List.map_append, List.map_cons, List.map_cons, h before]

/-! ## Layout of a listing -/

/-- Nothing but white space stands before the next newline. -/
def AtLineEnd (cs : List Char) : Prop := ∀ c ∈ cs.takeWhile (· != '\n'), isBlank c = true

instance (cs : List Char) : Decidable (AtLineEnd cs) := List.decidableBAll _ _

theorem AtLineEnd.head?_ne {cs : List Char} (h : AtLineEnd cs) : cs.head? ≠ some '\uFEFF' := by
  rintro hm
  obtain ⟨rest, rfl⟩ := List.head?_eq_some_iff.mp hm
  have hb := h '\uFEFF' (by simp)
  exact absurd hb (by decide)

theorem AtLineEnd.dropBlanks_eq_nil {cs : List Char} (h : AtLineEnd cs) :
    dropBlanks (cs.takeWhile (· != '\n')) = [] := by
  rw [dropBlanks, List.filter_eq_nil_iff]
  intro c hc
  simp [h c hc]

/-- One change to the layout of a listing. -/
inductive Relayout : String → String → Prop
  /-- White space is put anywhere in a line, but not before the byte order mark that begins the
  text. -/
  | blank (a b : String) {c : Char} : isBlank c = true → c ≠ '\n' →
      (a = "" → b.toList.head? ≠ some '\uFEFF') → Relayout (a ++ b) (a ++ String.singleton c ++ b)
  /-- A comment is put at the end of a line. -/
  | comment (a b : String) {text : String} : '\n' ∉ text.toList → AtLineEnd b.toList →
      Relayout (a ++ b) (a ++ "#" ++ text ++ b)
  /-- A newline is put at the end of the text. -/
  | newline (a : String) : Relayout a (a ++ "\n")
  /-- A byte order mark is put before a text that does not begin with one. -/
  | mark (a : String) : a.toList.head? ≠ some '\uFEFF' → Relayout a ("\uFEFF" ++ a)

/-- What means nothing at a place of a line means nothing at this place of a listing, unless there
is a byte order mark after it, or in it, that begins the text. -/
theorem read_insert {a b text : String} (hn : '\n' ∉ text.toList)
    (hm : a = "" → b.toList.head? ≠ some '\uFEFF' ∧ (text ++ b).toList.head? ≠ some '\uFEFF')
    (h : ∀ before, readEntry (before ++ text.toList ++ b.toList.takeWhile (· != '\n'))
      = readEntry (before ++ b.toList.takeWhile (· != '\n'))) :
    (read (a ++ text ++ b)).outcome = (read (a ++ b)).outcome := by
  have hl : ∀ {rest : String}, (a = "" → rest.toList.head? ≠ some '\uFEFF') →
      linesOf (a ++ rest) = lines (dropMark a.toList ++ rest.toList) := by
    intro rest hm
    rw [linesOf, String.toList_append, dropMark_append fun ha ↦ hm (String.toList_eq_nil_iff.mp ha)]
  rw [read_outcome, read_outcome, String.append_assoc, hl fun ha ↦ (hm ha).1, hl fun ha ↦ (hm ha).2,
    String.toList_append, ← List.append_assoc, readLines_lines_insert _ _ hn h]

/-- A change of the layout does not change the result of reading. -/
theorem Relayout.read_outcome_eq {text text' : String} (h : Relayout text text') :
    (read text').outcome = (read text).outcome := by
  cases h with
  | @blank a b c hc hn hm =>
    refine read_insert (by simpa using Ne.symm hn) (fun ha ↦ ⟨hm ha, ?_⟩) fun before ↦ ?_
    · rw [String.toList_append, String.toList_singleton]
      rintro ⟨rfl⟩
      exact absurd hc (by decide)
    · apply readEntry_congr_blanks
      simp [dropBlanks, hc]
  | @comment a b text ht he =>
    have hc : a ++ "#" ++ text = a ++ ("#" ++ text) := String.append_assoc
    rw [hc]
    refine read_insert ?_ (fun _ ↦ ⟨he.head?_ne, ?_⟩) fun before ↦ ?_
    · simpa using ht
    · simp
    · rw [String.toList_append, List.append_assoc]
      refine (readEntry_append_comment before _).trans (readEntry_congr_blanks ?_)
      rw [dropBlanks_append, he.dropBlanks_eq_nil, List.append_nil]
  | newline =>
    have hl : linesOf (text ++ "\n") = lines (dropMark text.toList ++ ['\n']) := by
      rw [linesOf, String.toList_append]
      exact congrArg lines (dropMark_append fun _ ↦ by decide)
    rw [read_outcome, read_outcome, hl, readLines_lines, List.splitOn_append_cons_self,
      List.splitOn_nil, readLines_append_void readEntry_nil, ← readLines_lines]
    rfl
  | mark _ hm =>
    have hl : linesOf ("\uFEFF" ++ text) = linesOf text := by
      rw [linesOf, linesOf, dropMark_eq_self hm, String.toList_append]
      rfl
    rw [read_outcome, read_outcome, hl]

/-- Reading does not depend on the layout.  White space other than newlines anywhere in the lines,
inside numbers and range markers and before newlines too, comments at the ends of lines, a newline
at the end of the text and a byte order mark at its beginning may be added and taken away: the
result is the same set, or the same fault of the same line. -/
theorem read_of_relayout {text text' : String} (h : Relation.EqvGen Relayout text text') :
    (read text').outcome = (read text).outcome := by
  induction h with
  | rel _ _ h => exact h.read_outcome_eq
  | refl _ => rfl
  | symm _ _ _ ih => exact ih.symm
  | trans _ _ _ _ _ ih ih' => exact ih'.trans ih

/-- A blank in a range marker, a carriage return before a newline, a comment before both, a newline
at the end and a byte order mark, in a listing with a fault. -/
theorem read_of_relayout_samples :
    (read "\uFEFF41. .43# A\r\nzz\n").outcome = (read "41..43\nzz").outcome ∧
      (read "41..43\nzz").outcome = .error (.malformed 2 (.notHex "zz")) := by
  have hblank : Relayout "41..43\nzz" "41. .43\nzz" :=
    .blank "41." ".43\nzz" (c := ' ') (by decide) (by decide) (by decide)
  have hreturn : Relayout "41. .43\nzz" "41. .43\r\nzz" :=
    .blank "41. .43" "\nzz" (c := '\r') (by decide) (by decide) (by decide)
  have hcomment : Relayout "41. .43\r\nzz" "41. .43# A\r\nzz" :=
    .comment "41. .43" "\r\nzz" (by decide : '\n' ∉ " A".toList) (by decide)
  have hnewline : Relayout "41. .43# A\r\nzz" "41. .43# A\r\nzz\n" := .newline _
  have hmark : Relayout "41. .43# A\r\nzz\n" "\uFEFF41. .43# A\r\nzz\n" := .mark _ (by decide)
  refine ⟨read_of_relayout ?_, by decide⟩
  exact .trans _ _ _ (.rel _ _ hblank)
    (.trans _ _ _ (.rel _ _ hreturn) (.trans _ _ _ (.rel _ _ hcomment)
    (.trans _ _ _ (.rel _ _ hnewline) (.rel _ _ hmark))))

end PropertyTable.Listing
