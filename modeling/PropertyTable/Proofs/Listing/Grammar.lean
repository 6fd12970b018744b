import Mathlib.Data.List.TakeWhile
import PropertyTable.Listing.Entry
import PropertyTable.Proofs.Text.Hex

/-!
# The grammar of entries

An entry is a numeral, or two numerals with the range marker between them, in any case, with any
number of leading zeros, and with white space anywhere.  The reader accepts what the grammar allows
and nothing else.
-/

namespace PropertyTable.Listing

open Text.Hex

/-- A text without white space spells a range: a numeral of the domain, or two of them with the
range marker between them and the lower one first. -/
def Spells (text : List Char) : CodeRange → Prop
  | .point c => Numeral text c.toNat ∧ c ≤ CodePoint.last
  | .range l h => ∃ as bs, text = as ++ ['.', '.'] ++ bs ∧ Numeral as l.toNat ∧ Numeral bs h.toNat ∧
      l ≤ h ∧ h ≤ CodePoint.last

/-! ## Numbers -/

/-- The number that is read is the numeral's, if it lies in the domain. -/
theorem readCode_eq_ok_iff {text : List Char} {c : CodePoint} :
    readCode text = .ok c ↔ Numeral text c.toNat ∧ c ≤ CodePoint.last := by
  unfold readCode
  rw [← read?_eq_some_iff]
  constructor
  · intro h
    split at h
    · cases h
    · next n hn =>
      split at h
      · next hl =>
        have hd : n < CodePoint.domainSize := Nat.lt_succ_of_le hl
        obtain rfl := Except.ok.inj h
        rw [CodePoint.toNat_ofNat hd]
        exact ⟨hn, CodePoint.ofNat_le_last hd⟩
      · cases h
  · rintro ⟨hn, hl⟩
    simp only [hn]
    rw [if_pos (UInt32.le_iff_toNat_le.mp hl), UInt32.ofNat_toNat]

/-- A range is read if both bounds are, and the lower one comes first. -/
theorem readBounds_eq_ok_iff {as bs : List Char} {r : CodeRange} :
    readBounds as bs = .ok r ↔
      ∃ l h, readCode as = .ok l ∧ readCode bs = .ok h ∧ l ≤ h ∧ r = .range l h := by
  unfold readBounds
  cases readCode as with
  | error e => simp [bind, Except.bind]
  | ok l =>
    cases readCode bs with
    | error e => simp [bind, Except.bind]
    | ok h =>
      simp only [bind, Except.bind, Except.ok.injEq, exists_and_left, exists_eq_left']
      split
      · next hlt => simp [UInt32.not_le.mpr hlt]
      · next hle => simp [UInt32.not_lt.mp hle, eq_comm]

/-! ## The range marker -/

theorem eq_append_of_splitRange? {text as bs : List Char} (h : splitRange? text = some (as, bs)) :
    text = as ++ ['.', '.'] ++ bs := by
  fun_induction splitRange? text generalizing as bs with
  | case1 => cases h
  | case2 rest =>
    cases h
    rfl
  | case3 c rest _ ih =>
    obtain ⟨⟨low, high⟩, hs, h⟩ := Option.map_eq_some_iff.mp h
    cases h
    rw [ih hs]
    rfl

/-- The first marker is the one that follows a text without dots. -/
theorem splitRange?_append {as : List Char} (h : '.' ∉ as) (bs : List Char) :
    splitRange? (as ++ ['.', '.'] ++ bs) = some (as, bs) := by
  induction as with
  | nil => rfl
  | cons a as ih =>
    rw [List.mem_cons, not_or] at h
    rw [List.cons_append, List.cons_append, splitRange?, ih h.2]
    · rfl
    · rintro rest rfl
      exact absurd rfl h.1

theorem splitRange?_eq_none {text : List Char} (h : '.' ∉ text) : splitRange? text = none := by
  cases hs : splitRange? text with
  | none => rfl
  | some p => exact absurd (by simp [eq_append_of_splitRange? hs]) h

/-! ## Lines -/

theorem field_eq (line : List Char) :
    field line = Text.dropBlanks (line.takeWhile fun c ↦ c != ';' && c != '#') := by
  simp [field, endsField, fieldSeparator, commentMarker, bne, Bool.not_or]

theorem hasSeparator_iff {line : List Char} :
    hasSeparator line = true ↔ (line.dropWhile fun c ↦ c != ';' && c != '#').head? = some ';' := by
  rw [hasSeparator, beq_iff_eq, List.find?_eq_head?_dropWhile_not]
  simp [endsField, fieldSeparator, commentMarker, bne, Bool.not_or]

theorem readEntry_of_nil {line : List Char} (h : field line = []) :
    readEntry line = if hasSeparator line then .error .empty else .ok none := by
  rw [readEntry, h]

theorem readEntry_of_marker {line as bs : List Char}
    (h : splitRange? (field line) = some (as, bs)) :
    readEntry line = some <$> readBounds as bs := by
  rw [readEntry]
  split
  · next hn => simp [hn, splitRange?] at h
  · rw [h]

theorem readEntry_of_no_marker {line : List Char} (hn : field line ≠ [])
    (h : splitRange? (field line) = none) :
    readEntry line = some <$> CodeRange.point <$> readCode (field line) := by
  rw [readEntry]
  split
  · next hn' => exact absurd hn' hn
  · rw [h]

private theorem map_eq_ok_iff {ε α β : Type} {f : α → β} {x : Except ε α} {b : β} :
    f <$> x = .ok b ↔ ∃ a, x = .ok a ∧ f a = b := by
  cases x <;> simp [Functor.map, Except.map]

/-- A line has no entry if its first field is empty and no separator ends it. -/
theorem readEntry_eq_none_iff {line : List Char} :
    readEntry line = .ok none ↔ field line = [] ∧ hasSeparator line = false := by
  by_cases hn : field line = []
  · rw [readEntry_of_nil hn]
    cases hasSeparator line <;> simp [hn]
  · cases hs : splitRange? (field line) with
    | none => simp [readEntry_of_no_marker hn hs, map_eq_ok_iff, hn]
    | some p => simp [readEntry_of_marker hs, map_eq_ok_iff, hn]

/-- A line has the entry that its first field spells. -/
theorem readEntry_eq_some_iff {line : List Char} {r : CodeRange} :
    readEntry line = .ok (some r) ↔ Spells (field line) r := by
  constructor
  · intro hr
    by_cases hn : field line = []
    · rw [readEntry_of_nil hn] at hr
      split at hr <;> cases hr
    cases hs : splitRange? (field line) with
    | none =>
      rw [readEntry_of_no_marker hn hs] at hr
      obtain ⟨_, hr, hr'⟩ := map_eq_ok_iff.mp hr
      obtain ⟨c, hc, rfl⟩ := map_eq_ok_iff.mp hr
      obtain rfl := Option.some.inj hr'
      exact readCode_eq_ok_iff.mp hc
    | some p =>
      obtain ⟨as, bs⟩ := p
      rw [readEntry_of_marker hs] at hr
      obtain ⟨_, hr, hr'⟩ := map_eq_ok_iff.mp hr
      obtain ⟨l, h, hl, hh, hle, rfl⟩ := readBounds_eq_ok_iff.mp hr
      obtain rfl := Option.some.inj hr'
      obtain ⟨hl, -⟩ := readCode_eq_ok_iff.mp hl
      obtain ⟨hh, hh'⟩ := readCode_eq_ok_iff.mp hh
      exact ⟨as, bs, eq_append_of_splitRange? hs, hl, hh, hle, hh'⟩
  · intro hr
    cases r with
    | point c =>
      obtain ⟨hc, hl⟩ := hr
      -- A numeral has no dots, so that it is not taken for a range.
      rw [readEntry_of_no_marker hc.ne_nil (splitRange?_eq_none hc.dot_notMem),
        readCode_eq_ok_iff.mpr ⟨hc, hl⟩]
      rfl
    | range l h =>
      obtain ⟨as, bs, hf, hl, hh, hle, hh'⟩ := hr
      have hs : splitRange? (field line) = some (as, bs) := by
        rw [hf, splitRange?_append hl.dot_notMem]
      have hr : readBounds as bs = .ok (.range l h) :=
        readBounds_eq_ok_iff.mpr ⟨l, h, readCode_eq_ok_iff.mpr ⟨hl, UInt32.le_trans hle hh'⟩,
          readCode_eq_ok_iff.mpr ⟨hh, hh'⟩, hle, rfl⟩
      rw [readEntry_of_marker hs, hr]
      rfl

/-- The range of a line lies in the domain. -/
theorem high_le_last_of_readEntry {line : List Char} {r : CodeRange}
    (hr : readEntry line = .ok (some r)) : r.high ≤ CodePoint.last := by
  have hr := readEntry_eq_some_iff.mp hr
  cases r with
  | point c => exact hr.2
  | range l h =>
    obtain ⟨_, _, -, -, -, -, hh⟩ := hr
    exact hh

/-! ## Comments -/

/-- A line up to its comment. -/
def uncommented (line : List Char) : List Char := line.takeWhile fun c ↦ c != '#'

/-- Nothing but white space stands before the comment, if there is one. -/
def Void (line : List Char) : Prop := ∀ c ∈ uncommented line, Text.isBlank c = true

instance (line : List Char) : Decidable (Void line) := List.decidableBAll _ (uncommented line)

theorem field_eq_uncommented (line : List Char) :
    field line = Text.dropBlanks ((uncommented line).takeWhile fun c ↦ c != ';') := by
  simp only [field_eq, uncommented, List.takeWhile_takeWhile, Bool.decide_and, Bool.decide_eq_true]

/-- A separator ends the first field if one stands before the comment. -/
theorem hasSeparator_iff_mem {line : List Char} :
    hasSeparator line = true ↔ ';' ∈ uncommented line := by
  rw [hasSeparator, beq_iff_eq]
  induction line with
  | nil => simp [uncommented]
  | cons c line ih =>
    by_cases hs : c = ';'
    · simp [hs, endsField, fieldSeparator, uncommented]
    by_cases hc : c = '#'
    · simp [hc, endsField, commentMarker, fieldSeparator, uncommented]
    have he : endsField c = false := by simp [endsField, fieldSeparator, commentMarker, hs, hc]
    have hu : uncommented (c :: line) = c :: uncommented line := by simp [uncommented, hc]
    rw [List.find?_cons_of_neg (by simp [he]), ih, hu, List.mem_cons, or_iff_right (Ne.symm hs)]

/-- Comments mean nothing: a line has the entry, or the fault, of what stands before its comment. -/
theorem readEntry_congr {line line' : List Char} (h : uncommented line = uncommented line') :
    readEntry line = readEntry line' := by
  have hf : field line = field line' := by rw [field_eq_uncommented, field_eq_uncommented, h]
  have hs : hasSeparator line = hasSeparator line' := by
    rw [Bool.eq_iff_iff, hasSeparator_iff_mem, hasSeparator_iff_mem, h]
  rw [readEntry, readEntry, hf, hs]

/-- The lines without entry are the blank ones and the comments. -/
theorem readEntry_eq_none_iff_void {line : List Char} : readEntry line = .ok none ↔ Void line := by
  rw [readEntry_eq_none_iff, ← Bool.not_eq_true, hasSeparator_iff_mem, field_eq_uncommented, Void]
  constructor
  · rintro ⟨hf, hs⟩
    have ht : (uncommented line).takeWhile (fun c ↦ c != ';') = uncommented line := by
      rw [List.takeWhile_eq_self_iff]
      intro c hc
      exact bne_iff_ne.mpr fun he ↦ hs (he ▸ hc)
    rw [ht] at hf
    simpa [Text.dropBlanks] using hf
  · intro h
    constructor
    · rw [Text.dropBlanks, List.filter_eq_nil_iff]
      intro c hc
      simp [h c (List.takeWhile_subset _ hc)]
    · intro hs
      exact absurd (h _ hs) (by decide)

/-- The reader against the grammar.  With the text before the first `;` or `#`, white space aside, a
line gives a code point if the text is its numeral, a range if the text is the numerals of its
bounds with the marker between them, and nothing if the text is empty and not cut off by a
separator; every other line is refused. -/
theorem readEntry_iff_grammar (line : List Char) :
    let text := (line.takeWhile fun c ↦ c != ';' && c != '#').filter fun c ↦ !Text.isBlank c
    let rest := line.dropWhile fun c ↦ c != ';' && c != '#'
    (∀ c, readEntry line = .ok (some (.point c)) ↔ Numeral text c.toNat ∧ c ≤ CodePoint.last) ∧
    (∀ l h, readEntry line = .ok (some (.range l h)) ↔
      ∃ as bs, text = as ++ ['.', '.'] ++ bs ∧ Numeral as l.toNat ∧ Numeral bs h.toNat ∧
        l ≤ h ∧ h ≤ CodePoint.last) ∧
    (readEntry line = .ok none ↔ text = [] ∧ rest.head? ≠ some ';') ∧
    ((∃ fault, readEntry line = .error fault) ↔
      (∀ r, ¬Spells text r) ∧ ¬(text = [] ∧ rest.head? ≠ some ';')) := by
  intro text rest
  have hf : field line = text := field_eq line
  have hn : readEntry line = .ok none ↔ text = [] ∧ rest.head? ≠ some ';' := by
    rw [readEntry_eq_none_iff, hf, ← Bool.not_eq_true, hasSeparator_iff]
  have hs : ∀ r, readEntry line = .ok (some r) ↔ Spells text r := by
    intro r
    rw [readEntry_eq_some_iff, hf]
  refine ⟨fun c ↦ hs (.point c), fun l h ↦ hs (.range l h), hn, ?_⟩
  simp only [← hs, ← hn]
  cases readEntry line with
  | error fault => simp
  | ok e => cases e <;> simp

-- White space is allowed inside the numerals and inside the marker.
example : readEntry " 0 3 7 0 . . 0000000000374 ;".toList = .ok (some (.range 0x370 0x374)) := by
  decide +kernel

end PropertyTable.Listing
