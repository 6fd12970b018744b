import PropertyTable.Proofs.CodeRange.Codes

/-!
# Walking over a range

A walk goes over a range step by step, from the lower end or from the upper one.  What is left of it
is a list, and a step takes one code point off an end of that list; so the steps from the lower end
give the code points of the range in order, those from the upper end give them in reverse, and both
come to an end.  Nothing is assumed of the bounds: they may be inverted, and they may be the first
and the last number of 32 bits, where a step beyond them would begin anew at the other end.
-/

namespace PropertyTable.CodeRange

namespace Walk

/-- What is left of a walk. -/
def rest (w : Walk) : List CodePoint := if w.done then [] else (range w.low w.high).codes

theorem rest_walk (r : CodeRange) : r.walk.rest = r.codes := rfl

theorem rest_not_done (l h : CodePoint) : rest ⟨l, h, false⟩ = (range l h).codes := rfl

/-- A step from the lower end takes the first code point off what is left, ... -/
theorem rest_eq_next (w : Walk) :
    w.rest = match w.next with
      | none => []
      | some (c, w) => c :: w.rest := by
  obtain ⟨l, h, _ | _⟩ := w
  · simp only [next, isOver, Bool.false_or, decide_eq_true_iff, rest_not_done]
    split_ifs with hinv hlt
    · exact codes_eq_nil_iff.mpr hinv
    · exact codes_range_of_lt hlt
    · -- The bounds have met, at the last code point.
      obtain rfl : l = h := UInt32.le_antisymm (UInt32.not_lt.mp hinv) (UInt32.not_lt.mp hlt)
      exact codes_range_self l
  · rfl

/-- ... and one from the upper end takes the last one. -/
theorem reverse_rest_eq_nextBack (w : Walk) :
    w.rest.reverse = match w.nextBack with
      | none => []
      | some (c, w) => c :: w.rest.reverse := by
  obtain ⟨l, h, _ | _⟩ := w
  · simp only [nextBack, isOver, Bool.false_or, decide_eq_true_iff, rest_not_done]
    split_ifs with hinv hlt
    · exact List.reverse_eq_nil_iff.mpr (codes_eq_nil_iff.mpr hinv)
    · rw [codes_range_of_lt_append hlt]
      exact List.reverse_concat
    · obtain rfl : l = h := UInt32.le_antisymm (UInt32.not_lt.mp hinv) (UInt32.not_lt.mp hlt)
      rw [codes_range_self]
      rfl
  · rfl

/-- If each step takes the first item off a list, `n` steps give its first `n` items. -/
theorem collect_eq_take {step : Walk → Option (CodePoint × Walk)} {list : Walk → List CodePoint}
    (hstep : ∀ w, list w = match step w with
      | none => []
      | some (c, w) => c :: list w) (n : Nat) (w : Walk) :
    collect step n w = (list w).take n := by
  induction n generalizing w with
  | zero => rfl
  | succ n ih =>
    rw [collect, hstep w]
    cases step w with
    | none => rfl
    | some given => exact congrArg (given.1 :: ·) (ih given.2)

end Walk

/-! ## Both directions -/

theorem front_eq_take (r : CodeRange) (n : Nat) : r.front n = r.codes.take n := by
  rw [front, Walk.collect_eq_take Walk.rest_eq_next, Walk.rest_walk]

theorem back_eq_take (r : CodeRange) (n : Nat) : r.back n = r.codes.reverse.take n := by
  rw [back, Walk.collect_eq_take Walk.reverse_rest_eq_nextBack, Walk.rest_walk]

/-! ## Counting in machine words -/

/-- The number of code points, from a difference of 32 bits, counted up in 64 bits. -/
def wordSize (r : CodeRange) : UInt64 := if r.low ≤ r.high then (r.high - r.low).toUInt64 + 1 else 0

/-- Neither the difference nor the sum passes its width. -/
theorem toNat_wordSize (r : CodeRange) : r.wordSize.toNat = r.size := by
  have hh := r.high.toNat_lt
  unfold wordSize
  split_ifs with hle
  · have hle' := UInt32.le_iff_toNat_le.mp hle
    rw [UInt64.toNat_add, UInt32.toNat_toUInt64, UInt32.toNat_sub_of_le _ _ hle, UInt64.toNat_one,
      size]
    omega
  · exact (size_eq_zero_iff.mpr (UInt32.not_le.mp hle)).symm

/-- The list of a range, its size and the walks over it agree.  Whatever the bounds are, the list
holds the code points between them, each once and in ascending order; a walk from the lower end
gives its items one after another and ends behind the last one, and a walk from the upper end gives
them in reverse.  There are as many as the size tells, at most `2 ^ 32`, and counting them in words
of 64 bits gives the same number.  There is none just if the bounds are inverted. -/
theorem walks_agree_with_size (r : CodeRange) :
    (∀ c, c ∈ r.codes ↔ r.low ≤ c ∧ c ≤ r.high) ∧ r.codes.Pairwise (· < ·) ∧
    (∀ n, r.front n = r.codes.take n ∧ r.back n = r.codes.reverse.take n) ∧
    (∀ more, r.front (r.size + more) = r.codes ∧ r.back (r.size + more) = r.codes.reverse) ∧
    r.codes.length = r.size ∧ r.size ≤ 2 ^ 32 ∧ r.wordSize.toNat = r.size ∧
    (r.size = 0 ↔ r.high < r.low) ∧ (r.isEmpty = true ↔ r.codes = []) := by
  have hall (more : Nat) : r.codes.length ≤ r.size + more := by
    rw [length_codes]
    exact Nat.le_add_right _ _
  refine ⟨fun c ↦ mem_codes, pairwise_codes r, fun n ↦ ⟨front_eq_take r n, back_eq_take r n⟩,
    fun more ↦ ⟨?_, ?_⟩, length_codes r, size_le r, toNat_wordSize r, size_eq_zero_iff, ?_⟩
  · rw [front_eq_take, List.take_of_length_le (hall more)]
  · rw [back_eq_take, List.take_of_length_le (List.length_reverse.trans_le (hall more))]
  · rw [isEmpty, decide_eq_true_iff, codes_eq_nil_iff]

/-- Walks end at the last and at the first number, and all the numbers are counted. -/
example : (range 0xFFFFFFFD 0xFFFFFFFF).front 5 = [0xFFFFFFFD, 0xFFFFFFFE, 0xFFFFFFFF] ∧
    (range 0 1).back 5 = [1, 0] ∧ (range 0 0xFFFFFFFF).wordSize = 0x100000000 := by decide

end PropertyTable.CodeRange
