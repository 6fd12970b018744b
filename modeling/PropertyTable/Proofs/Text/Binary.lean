import Mathlib.Algebra.Group.Nat.Defs
import PropertyTable.Proofs.Text.Lines
import PropertyTable.Text.Binary
import PropertyTable.Text.Blank

/-!
# Reading binary literals

A reader for lists of binary literals: a text is cut at every comma with a blank after it, pieces of
white space are dropped, and each other piece is read in base two.  It gives back the bytes that
were written.
-/

namespace PropertyTable.Text.Binary

/-- The pieces of a text between its separators. -/
def pieces : List Char → List (List Char)
  | [] => [[]]
  | ',' :: ' ' :: cs => [] :: pieces cs
  | c :: cs => joinFirst c (pieces cs)

/-- The pieces that are not all white space. -/
def literals (cs : List Char) : List (List Char) :=
  (pieces cs).filter fun piece ↦ !piece.all isBlank

/-- The value of a binary digit. -/
def bit? (c : Char) : Option Nat :=
  if c = '0' then some 0 else if c = '1' then some 1 else none

/-- The number that digits stand for, the most significant first. -/
def value (bits : List Nat) : Nat := bits.foldl (fun n b ↦ 2 * n + b) 0

/-- Reads a literal; a number above a byte, or any other text, is none. -/
def read? : List Char → Option UInt8
  | '0' :: 'b' :: c :: cs => do
    let n := value (← (c :: cs).mapM bit?)
    if n < 256 then some (UInt8.ofNat n) else none
  | _ => none

/-! ## Digits -/

theorem bit?_digit (b : Bool) : bit? (digit b) = some b.toNat := by cases b <;> rfl

private theorem mapM_bit? (bs : List Bool) :
    (bs.map digit).mapM bit? = some (bs.map Bool.toNat) := by
  induction bs with
  | nil => rfl
  | cons b bs ih => simp [bit?_digit, ih]

theorem value_append_singleton (bits : List Nat) (b : Nat) :
    value (bits ++ [b]) = 2 * value bits + b := by
  simp [value]

/-- The low bits of a number, the most significant first, are its digits. -/
theorem value_testBit (k n : Nat) :
    value ((List.range k).map fun i ↦ (n.testBit (k - 1 - i)).toNat) = n % 2 ^ k := by
  induction k generalizing n with
  | zero => simp [value, Nat.mod_one]
  | succ k ih =>
    -- All digits but the last are those of the half.
    have hd : ∀ i ∈ List.range k,
        (n.testBit (k + 1 - 1 - i)).toNat = ((n / 2).testBit (k - 1 - i)).toNat := by
      intro i hi
      have hi := List.mem_range.mp hi
      rw [← Nat.testBit_succ, show k + 1 - 1 - i = k - 1 - i + 1 by omega]
    rw [List.range_succ, List.map_append, List.map_singleton, List.map_congr_left hd,
      value_append_singleton, ih, Nat.add_sub_cancel, Nat.sub_self, Nat.toNat_testBit, Nat.pow_zero,
      Nat.div_one, Nat.pow_succ', Nat.mod_mul, Nat.add_comm]

/-- Reading gives the byte back that was written. -/
theorem read?_digits (byte : UInt8) : read? (['0', 'b'] ++ digits byte) = some byte := by
  have hm : (digits byte).mapM bit?
      = some ((List.range 8).map fun i ↦ (byte.toNat.testBit (8 - 1 - i)).toNat) := by
    have h := mapM_bit? ((List.range 8).map fun i ↦ byte.toNat.testBit (7 - i))
    rwa [List.map_map, List.map_map] at h
  have hv := value_testBit 8 byte.toNat
  rw [Nat.mod_eq_of_lt byte.toNat_lt] at hv
  obtain ⟨c, cs, hc⟩ : ∃ c cs, digits byte = c :: cs := ⟨_, _, rfl⟩
  rw [hc] at hm ⊢
  change (((c :: cs).mapM bit?).bind fun bits ↦
    if value bits < 256 then some (UInt8.ofNat (value bits)) else none) = some byte
  rw [hm, Option.bind_some, hv, if_pos byte.toNat_lt, UInt8.ofNat_toNat]

/-! ## Pieces -/

theorem pieces_cons {c : Char} (h : c ≠ ',') (cs : List Char) :
    pieces (c :: cs) = joinFirst c (pieces cs) := by
  rw [pieces]
  rintro _ rfl
  exact absurd rfl h

theorem pieces_append {as : List Char} (h : ',' ∉ as) (bs : List Char) :
    pieces (as ++ bs) = as.foldr joinFirst (pieces bs) := by
  induction as with
  | nil => rfl
  | cons a as ih =>
    rw [List.mem_cons, not_or] at h
    rw [List.cons_append, pieces_cons (Ne.symm h.1), ih h.2, List.foldr_cons]

theorem mem_digits {byte : UInt8} {c : Char} (h : c ∈ digits byte) : c = '0' ∨ c = '1' := by
  obtain ⟨i, -, rfl⟩ := List.mem_map.mp h
  cases byte.toNat.testBit (7 - i)
  · exact .inl rfl
  · exact .inr rfl

/-- A literal is the first piece of a text that begins with it. -/
theorem pieces_literal (byte : UInt8) (cs : List Char) :
    pieces (literal byte ++ cs) = (['0', 'b'] ++ digits byte) :: pieces cs := by
  have hc : ',' ∉ ['0', 'b'] ++ digits byte := by
    intro h
    rcases List.mem_append.mp h with h | h
    · simp at h
    · rcases mem_digits h with h | h <;> cases h
  rw [literal, List.append_assoc, pieces_append hc]
  change List.foldr joinFirst ([] :: pieces cs) _ = _
  rw [foldr_joinFirst, List.append_nil]

theorem literals_literal (byte : UInt8) (cs : List Char) :
    literals (literal byte ++ cs) = (['0', 'b'] ++ digits byte) :: literals cs := by
  rw [literals, pieces_literal, List.filter_cons_of_pos]
  · rfl
  · rfl

theorem plain_literal (byte : UInt8) : Plain (literal byte) := by
  rw [literal, plain_append, plain_append]
  refine ⟨⟨by decide, ?_⟩, by decide⟩
  intro c hc
  rcases mem_digits hc with rfl | rfl
  · decide
  · decide

end PropertyTable.Text.Binary
