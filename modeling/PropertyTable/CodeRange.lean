import PropertyTable.CodePoint

/-!
# Ranges of code points

A line of a listing names one code point or a range with both bounds included.  A range built by
hand may have its bounds inverted; it then holds nothing.
-/

namespace PropertyTable

/-- One code point, or the code points from `low` to `high`. -/
inductive CodeRange where
  | point (code : CodePoint)
  | range (low high : CodePoint)
deriving DecidableEq, Repr

namespace CodeRange

/-- The lower bound. -/
def low : CodeRange → CodePoint
  | point code => code
  | range low _ => low

/-- The upper bound. -/
def high : CodeRange → CodePoint
  | point code => code
  | range _ high => high

/-- A code point is in a range if it lies between the bounds. -/
instance : Membership CodePoint CodeRange where
  mem r c := r.low ≤ c ∧ c ≤ r.high

theorem mem_def {r : CodeRange} {c : CodePoint} : c ∈ r ↔ r.low ≤ c ∧ c ≤ r.high := Iff.rfl

instance (c : CodePoint) (r : CodeRange) : Decidable (c ∈ r) := inferInstanceAs (Decidable (_ ∧ _))

/-- The number of code points in a range, at most `2 ^ 32`. -/
def size (r : CodeRange) : Nat := r.high.toNat + 1 - r.low.toNat

/-- Whether a range holds nothing. -/
def isEmpty (r : CodeRange) : Bool := r.high < r.low

/-- The code points of a range, ascending. -/
def codes (r : CodeRange) : List CodePoint := (List.range' r.low.toNat r.size).map UInt32.ofNat

/-- A walk over a range, from both ends. -/
structure Walk where
  /-- The code point that comes next from the lower end. -/
  low : CodePoint
  /-- The code point that comes next from the upper end. -/
  high : CodePoint
  /-- Whether the last code point was given.  The bounds do not show it: they stay where they met,
  since there may be no number beyond. -/
  done : Bool
deriving DecidableEq, Repr

namespace Walk

/-- Whether nothing is left. -/
def isOver (w : Walk) : Bool := w.done || w.high < w.low

/-- Gives the lowest code point that is left. -/
def next (w : Walk) : Option (CodePoint × Walk) :=
  if w.isOver then none
  else if w.low < w.high then some (w.low, { w with low := w.low + 1 })
  else some (w.low, { w with done := true })

/-- Gives the highest code point that is left. -/
def nextBack (w : Walk) : Option (CodePoint × Walk) :=
  if w.isOver then none
  else if w.low < w.high then some (w.high, { w with high := w.high - 1 })
  else some (w.high, { w with done := true })

/-- What a walk gives in `n` steps, or in fewer if it ends. -/
def collect (step : Walk → Option (CodePoint × Walk)) : Nat → Walk → List CodePoint
  | 0, _ => []
  | n + 1, w => match step w with
    | none => []
    | some (c, w) => c :: collect step n w

end Walk

/-- A walk over all of a range. -/
def walk (r : CodeRange) : Walk := ⟨r.low, r.high, false⟩

/-- The first `n` code points of a range, ascending. -/
def front (r : CodeRange) (n : Nat) : List CodePoint := Walk.collect Walk.next n r.walk

/-- The last `n` code points of a range, descending. -/
def back (r : CodeRange) (n : Nat) : List CodePoint := Walk.collect Walk.nextBack n r.walk

/-- The part of a range up to a bound. -/
def upTo (r : CodeRange) (bound : CodePoint) : CodeRange := range r.low (min r.high bound)

/-- The range with the given bounds, a point if they are one. -/
def ofBounds (low high : CodePoint) : CodeRange := if low = high then point low else range low high

/-- How the journal shows a range, in decimal. -/
def text : CodeRange → String
  | point code => "Point(" ++ toString code.toNat ++ ")"
  | range low high => "Range(" ++ toString low.toNat ++ ", " ++ toString high.toNat ++ ")"

@[simp] theorem low_point (c : CodePoint) : (point c).low = c := rfl

@[simp] theorem high_point (c : CodePoint) : (point c).high = c := rfl

@[simp] theorem low_range (l h : CodePoint) : (range l h).low = l := rfl

@[simp] theorem high_range (l h : CodePoint) : (range l h).high = h := rfl

@[simp] theorem low_ofBounds (l h : CodePoint) : (ofBounds l h).low = l := by
  unfold ofBounds; split <;> rfl

@[simp] theorem high_ofBounds (l h : CodePoint) : (ofBounds l h).high = h := by
  unfold ofBounds
  split
  · assumption
  · rfl

@[simp] theorem low_upTo (r : CodeRange) (b : CodePoint) : (r.upTo b).low = r.low := rfl

@[simp] theorem high_upTo (r : CodeRange) (b : CodePoint) : (r.upTo b).high = min r.high b := rfl

@[simp] theorem length_codes (r : CodeRange) : r.codes.length = r.size := by simp [codes]

/-- The list of a range holds its code points. -/
@[simp] theorem mem_codes {r : CodeRange} {c : CodePoint} : c ∈ r.codes ↔ c ∈ r := by
  have := r.high.toNat_lt
  simp only [codes, size, List.mem_map, List.mem_range'_1, mem_def, UInt32.le_iff_toNat_le]
  constructor
  · rintro ⟨n, hn, rfl⟩
    rw [UInt32.toNat_ofNat_of_lt' (by simp only [UInt32.size]; omega)]
    omega
  · exact fun h ↦ ⟨c.toNat, by omega, UInt32.ofNat_toNat⟩

end CodeRange

end PropertyTable
