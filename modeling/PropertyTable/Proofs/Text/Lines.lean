import Mathlib.Data.List.Basic
import Mathlib.Data.List.TakeWhile
import PropertyTable.Text.Lines

/-!
# Lines of longer texts

How the lines of a text come from those of its parts.  After a newline the lines of the rest follow
unchanged, and characters that end no line only make the first line longer.
-/

namespace PropertyTable.Text

/-- A text holds no newline, nor a carriage return that could become a part of one. -/
def Plain (cs : List Char) : Prop := ∀ c ∈ cs, c ≠ '\n' ∧ c ≠ '\r'

instance (cs : List Char) : Decidable (Plain cs) := List.decidableBAll _ cs

@[simp] theorem plain_append {as bs : List Char} : Plain (as ++ bs) ↔ Plain as ∧ Plain bs :=
  List.forall_mem_append

theorem foldr_joinFirst (as line : List Char) (rest : List (List Char)) :
    as.foldr joinFirst (line :: rest) = (as ++ line) :: rest := by
  induction as with
  | nil => rfl
  | cons a as ih => rw [List.foldr_cons, ih, joinFirst, List.cons_append]

theorem lines_append_of_plain {as : List Char} (h : Plain as) (bs : List Char) :
    lines (as ++ bs) = as.foldr joinFirst (lines bs) := by
  induction as with
  | nil => rfl
  | cons a as ih =>
    obtain ⟨⟨hn, hr⟩, h⟩ := List.forall_mem_cons.mp h
    rw [List.cons_append, lines_cons hn fun hr' ↦ absurd hr' hr, ih h, List.foldr_cons]

/-- A line ends at its newline. -/
theorem lines_plain_newline {as : List Char} (h : Plain as) (bs : List Char) :
    lines (as ++ '\n' :: bs) = as :: lines bs := by
  rw [lines_append_of_plain h, lines_newline, foldr_joinFirst, List.append_nil]

/-! ## Carriage returns -/

/-- A line without the carriage return that may end it. -/
def chomp (line : List Char) : List Char :=
  if line.getLast? = some '\r' then line.dropLast else line

/-- Only what follows a character other than a carriage return is cut. -/
theorem chomp_append_cons {c : Char} (hc : c ≠ '\r') (as bs : List Char) :
    chomp (as ++ c :: bs) = as ++ c :: chomp bs := by
  unfold chomp
  rw [List.getLast?_append_of_ne_nil as (List.cons_ne_nil c bs)]
  cases bs with
  | nil => simp [hc]
  | cons b bs =>
    rw [List.getLast?_cons_cons, List.dropLast_append_of_ne_nil (List.cons_ne_nil c _),
      List.dropLast_cons_of_ne_nil (List.cons_ne_nil b bs)]
    split <;> rfl

/-- A line ends at the first newline, and a carriage return before it belongs to the line's end. -/
theorem lines_append_newline {as : List Char} (h : '\n' ∉ as) (bs : List Char) :
    lines (as ++ '\n' :: bs) = chomp as :: lines bs := by
  induction as with
  | nil => rfl
  | cons a as ih =>
    rw [List.mem_cons, not_or] at h
    rw [List.cons_append]
    cases as with
    | nil =>
      by_cases ha : a = '\r'
      · subst ha
        rfl
      · rw [List.nil_append, lines_cons (Ne.symm h.1) fun hr ↦ absurd hr ha, lines_newline]
        simp [chomp, ha, joinFirst]
    | cons b as =>
      have hb : ∀ rest, b :: as ++ '\n' :: bs ≠ '\n' :: rest := by
        rintro rest hr
        obtain ⟨rfl, -⟩ := List.cons.inj hr
        exact h.2 List.mem_cons_self
      rw [lines_cons (Ne.symm h.1) fun _ ↦ hb, ih h.2, joinFirst]
      unfold chomp
      rw [List.getLast?_cons_cons, List.dropLast_cons_of_ne_nil (List.cons_ne_nil b as)]
      split <;> rfl

/-! ## Texts one after another -/

/-- Texts are taken line by line: one without a newline, and one with a line before it. -/
@[elab_as_elim]
theorem line_induction {motive : List Char → Prop} (last : ∀ as, '\n' ∉ as → motive as)
    (line : ∀ as bs, '\n' ∉ as → motive bs → motive (as ++ '\n' :: bs)) (cs : List Char) :
    motive cs := by
  induction h : cs.length using Nat.strongRecOn generalizing cs with
  | ind n ih =>
    by_cases hn : '\n' ∈ cs
    · obtain ⟨as, bs, rfl, has⟩ := List.eq_append_cons_of_mem hn
      apply line as bs has
      apply ih bs.length _ bs rfl
      rw [← h, List.length_append, List.length_cons]
      omega
    · exact last cs hn

/-- A text is empty or ends in a newline, so that what follows it begins a line. -/
def Closed (cs : List Char) : Prop := cs = [] ∨ cs.getLast? = some '\n'

instance (cs : List Char) : Decidable (Closed cs) := inferInstanceAs (Decidable (_ ∨ _))

theorem closed_append_newline {as bs : List Char} : Closed (as ++ '\n' :: bs) ↔ Closed bs := by
  cases bs with
  | nil => simp [Closed]
  | cons b bs => simp [Closed, List.getLast?_cons_cons]

theorem Closed.eq_nil {cs : List Char} (h : Closed cs) (hn : '\n' ∉ cs) : cs = [] := by
  rcases h with h | h
  · exact h
  · exact absurd (List.mem_of_getLast? h) hn

/-- After a newline, or at the beginning, the lines of the rest follow. -/
theorem lines_append_of_closed {as : List Char} (h : Closed as) (bs : List Char) :
    lines (as ++ bs) = lines as ++ lines bs := by
  induction as using line_induction with
  | last as hn =>
    rw [h.eq_nil hn]
    rfl
  | line as cs hn ih =>
    rw [List.append_assoc, List.cons_append, lines_append_newline hn, lines_append_newline hn,
      ih (closed_append_newline.mp h), List.cons_append]

/-- A closed text has as many lines as newlines. -/
theorem length_lines_of_closed {cs : List Char} (h : Closed cs) :
    (lines cs).length = cs.count '\n' := by
  induction cs using line_induction with
  | last as hn =>
    rw [h.eq_nil hn]
    rfl
  | line as bs hn ih =>
    rw [lines_append_newline hn, List.length_cons, ih (closed_append_newline.mp h),
      List.count_append, List.count_cons_self, List.count_eq_zero_of_not_mem hn, Nat.zero_add]

/-! ## Places in a text -/

/-- A text without a newline is its only line, unless it is empty. -/
theorem lines_of_notMem {cs : List Char} (h : '\n' ∉ cs) :
    lines cs = if cs = [] then [] else [cs] := by
  induction cs with
  | nil => rfl
  | cons c cs ih =>
    rw [List.mem_cons, not_or] at h
    have hcs : ∀ rest, cs ≠ '\n' :: rest := by
      rintro rest rfl
      exact h.2 List.mem_cons_self
    rw [lines_cons (Ne.symm h.1) fun _ ↦ hcs, ih h.2, if_neg (List.cons_ne_nil c cs)]
    split
    · next hn =>
      rw [hn]
      rfl
    · rfl

/-- A text without a newline is put in front of the first part between newlines. -/
theorem splitOn_append_of_notMem {as : List Char} (h : '\n' ∉ as) (bs : List Char) :
    (as ++ bs).splitOn '\n' = (as ++ bs.takeWhile (· != '\n')) :: (bs.splitOn '\n').tail := by
  induction bs using line_induction with
  | last bs hb =>
    have ht : bs.takeWhile (· != '\n') = bs :=
      List.takeWhile_eq_self_iff.mpr fun c hc ↦ bne_iff_ne.mpr (ne_of_mem_of_not_mem hc hb)
    rw [List.splitOn_eq_singleton (by simp [h, hb]), List.splitOn_eq_singleton hb, ht,
      List.tail_cons]
  | line bs cs hb _ =>
    have ht : (bs ++ '\n' :: cs).takeWhile (· != '\n') = bs := by
      rw [List.takeWhile_append_of_pos fun c hc ↦ bne_iff_ne.mpr (ne_of_mem_of_not_mem hc hb),
        List.takeWhile_cons_of_neg (by decide), List.append_nil]
    rw [← List.append_assoc, List.splitOn_append_cons_self_of_not_mem (by simp [h, hb]),
      List.splitOn_append_cons_self_of_not_mem hb, ht, List.tail_cons]

/-- What is put at a place of a text, and holds no newline, comes to stand in one part between
newlines, and the other parts do not depend on it. -/
theorem exists_splitOn_append (as bs : List Char) :
    ∃ above before below, ∀ cs, '\n' ∉ cs → (as ++ cs ++ bs).splitOn '\n'
      = above ++ (before ++ cs ++ bs.takeWhile (· != '\n')) :: below := by
  induction as using line_induction with
  | last as ha =>
    refine ⟨[], as, (bs.splitOn '\n').tail, fun cs hc ↦ ?_⟩
    exact splitOn_append_of_notMem (by simp [ha, hc]) bs
  | line as as' ha ih =>
    obtain ⟨above, before, below, h⟩ := ih
    refine ⟨as :: above, before, below, fun cs hc ↦ ?_⟩
    rw [List.append_assoc, List.append_assoc, List.cons_append,
      List.splitOn_append_cons_self_of_not_mem ha, ← List.append_assoc, h cs hc, List.cons_append]

/-! ## Byte order marks -/

/-- A text that does not begin with a byte order mark stays as it is. -/
theorem dropMark_eq_self {cs : List Char} (h : cs.head? ≠ some '\uFEFF') : dropMark cs = cs := by
  unfold dropMark
  split
  · exact absurd rfl h
  · rfl

theorem dropMark_eq_or (cs : List Char) : dropMark cs = cs ∨ cs = '\uFEFF' :: dropMark cs := by
  unfold dropMark
  split
  · exact .inr rfl
  · exact .inl rfl

/-- Only what begins a text is taken for a byte order mark. -/
theorem dropMark_append {as bs : List Char} (h : as = [] → bs.head? ≠ some '\uFEFF') :
    dropMark (as ++ bs) = dropMark as ++ bs := by
  cases as with
  | nil => exact dropMark_eq_self (h rfl)
  | cons a as =>
    by_cases ha : a = '\uFEFF'
    · rw [ha]
      rfl
    · rw [dropMark_eq_self, dropMark_eq_self] <;> simpa using ha

theorem Closed.dropMark {cs : List Char} (h : Closed cs) : Closed (dropMark cs) := by
  rcases dropMark_eq_or cs with he | he
  · rwa [he]
  · rcases h with h | h
    · rw [h] at he
      cases he
    · -- The mark is no newline, so that the newline stands after it.
      rw [he] at h
      cases hd : Text.dropMark cs with
      | nil => simp [hd] at h
      | cons c rest =>
        rw [hd, List.getLast?_cons_cons] at h
        exact .inr h

theorem count_newline_dropMark (cs : List Char) : (dropMark cs).count '\n' = cs.count '\n' := by
  rcases dropMark_eq_or cs with he | he
  · rw [he]
  · conv_rhs => rw [he]
    rw [List.count_cons_of_ne (by decide)]

end PropertyTable.Text
